import ElectricCircuits.RowImage
import ElectricCircuits.WhereSql
import Mathlib.Algebra.Order.Field.Rat

/-! The clauses of a WHERE with SQL's own reading of them, over the constants as they are written. -/
namespace ElectricCircuits
namespace WhereSql
open ThreeValued

/-- A clause as SQL knows it, its constants as they are written; a NOT after the column is a flag. -/
inductive Clause where
  | compare (col : String) (negated : Bool) (op : LeafOp) (value : Tok)
  | like (col : String) (negated : Bool) (value : Tok)
  | between (col : String) (negated : Bool) (lo hi : Tok)
  | isNull (col : String) (negated : Bool)
  | inList (col : String) (negated : Bool) (values : List Tok)
  | inSelect (col : String) (negated : Bool) (raw project : String)
  | inSelectWhere (col : String) (negated : Bool) (raw project : String) (w : Clause)
  | const (a : Tok) (op : String) (b : Tok)
  | not (c : Clause)
  | and (c d : Clause)
  | or (c d : Clause)

/-- The number that a numeral of SQL stands for. -/
def decimalOf (s : List Char) : Option ℚ :=
  let negative := s.head? = some '-'
  let s := if negative then s.tail else s
  let whole := s.takeWhile Char.isDigit
  let s := s.dropWhile Char.isDigit
  let fraction := if s.head? = some '.' then s.tail.takeWhile Char.isDigit else []
  let s := if s.head? = some '.' then s.tail.dropWhile Char.isDigit else s
  let digits := whole ++ fraction
  let exponent : Option ℤ :=
    match s with
    | [] => some 0
    | c :: s =>
      if c = 'e' ∨ c = 'E' then
        let below := s.head? = some '-'
        let s := if below ∨ s.head? = some '+' then s.tail else s
        if s ≠ [] ∧ s.all Char.isDigit then
          some (if below then -(Nat.ofDigitChars 10 s 0 : ℤ) else (Nat.ofDigitChars 10 s 0 : ℤ))
        else none
      else none
  if digits = [] then none
  else exponent.map fun e =>
    (if negative then -1 else 1)*(Nat.ofDigitChars 10 digits 0 : ℚ)*10^(e-(fraction.length : ℤ))

/-- A numeral without a point or an exponent that a 64-bit integer holds. -/
def intOf (n : String) : Option ℤ :=
  if n.toList.any fun c => c ∈ ['.','e','E'] then none else parseI64 n.toList

open Classical in
/-- The double that is nearest to a number, if there is one in range. -/
noncomputable def nearestDouble (q : ℚ) : Option ℤ :=
  if h : ∃ k : ℤ, Binary64.Nearest k q ∧ k.natAbs < 0x7FF0000000000000 then some h.choose else none

/-- How the database reads a string constant: one that it compares with a number or a truth value, and one beside
a column of another type. -/
structure Coercion where
  number : String → String → Option ℚ
  bool : String → Option Bool
  cell : ColumnType → String → Option Value

def boolOf : Tok → Option Bool
  | .true => some Bool.true
  | .false => some Bool.false
  | _ => none

/-- The order of two constants in SQL; constants of types that do not compare have none. -/
def sqlOrd (co : Coercion) : Tok → Tok → Option Ordering
  | .num x,.num y => do return compare (← decimalOf x.toList) (← decimalOf y.toList)
  | .str x,.str y => some (compare x y)
  | .num x,.str y => do return compare (← decimalOf x.toList) (← co.number x y)
  | .str x,.num y => do return compare (← co.number y x) (← decimalOf y.toList)
  | .str x,b => do return compare (← co.bool x) (← boolOf b)
  | a,.str y => do return compare (← boolOf a) (← co.bool y)
  | a,b => do return compare (← boolOf a) (← boolOf b)

/-- A comparison of constants in SQL. -/
def sqlConst (co : Coercion) (a : Tok) (s : String) (b : Tok) : Option Bool := do
  return (← leafOp s).holds (← sqlOrd co a b)

/-- The order of a cell and a constant in SQL, `none` for a constant that does not compare with the column: an
integer and a numeral compare as numbers, a double and a numeral as doubles. -/
noncomputable def cellOrd (co : Coercion) (ty : ColumnType) (t : Tok) : Option (Value → Option Ordering) :=
  match ty,t with
  | .int,.num n => (decimalOf n.toList).map fun q x =>
    match x with
    | .int i => some (compare (i : ℚ) q)
    | _ => none
  | .float,.num n => ((decimalOf n.toList).bind nearestDouble).map fun k x =>
    match x with
    | .float f => some (compare f.key k)
    | _ => none
  | .text,.str s => some fun x => x.ordering (.text s)
  | .bool,.true => some fun x => x.ordering (.bool Bool.true)
  | .bool,.false => some fun x => x.ordering (.bool Bool.false)
  | ty,.str s => (co.cell ty s).map fun v x => x.ordering v
  | _,_ => none

/-- What an operator says of an order; without one, as on NULL, it is unknown. -/
def truthOf (op : LeafOp) : Option Ordering → Truth
  | some o => Truth.ofBool (op.holds o)
  | none => .maybe

/-- A comparison of a cell with a constant in SQL; LIKE is for texts. -/
noncomputable def sqlTest (co : Coercion) (ty : ColumnType) (op : LeafOp) (t : Tok) : Option (Value → Truth) :=
  if op = .like then
    match ty,t with
    | .text,.str s => some fun x => sqlCmp x .like (.text s)
    | _,_ => none
  else (cellOrd co ty t).map fun ord x => truthOf op (ord x)

/-- An integer beside a double is compared as a double. -/
def Widens (ty ty' : ColumnType) : Prop := (ty = .int ∧ ty' = .float) ∨ (ty = .float ∧ ty' = .int)

instance (ty ty' : ColumnType) : Decidable (Widens ty ty') :=
  inferInstanceAs (Decidable ((_ ∧ _) ∨ (_ ∧ _)))

def widened : Value → Value
  | .int i => .float (.ofInt i)
  | v => v

/-- Membership of a cell in the values of another column in SQL, `none` for columns that do not compare. -/
def sqlSelect (ty ty' : ColumnType) : Option (Finset Value → Value → Truth) :=
  if ty = ty' then some fun values x => sqlIn (fun _ => values) "" x
  else if Widens ty ty' then some fun values x => sqlIn (fun _ => values.image widened) "" (widened x)
  else none

def flip (negated : Bool) (t : Truth) : Truth := if negated then t.neg else t

/-- A numeral that stands for a number. -/
def Spelled (t : Tok) : Prop := ∀ n, t = .num n → (decimalOf n.toList).isSome

namespace Clause

/-- SQL's value of a clause on the rows of a table, `none` for a clause that SQL refuses; a table without a
schema is one of `public`. -/
noncomputable def sql (co : Coercion) (db : Database) : Clause → TableSchema → Option (Row → Truth)
  | .compare col negated op t,ts => do
    let idx ← (ts.columnIndex col).toOption
    let test ← sqlTest co (ts.columnType idx) op t
    return fun row => flip negated (test (row.cell idx))
  | .like col negated t,ts => do
    let idx ← (ts.columnIndex col).toOption
    let test ← sqlTest co (ts.columnType idx) .like t
    return fun row => flip negated (test (row.cell idx))
  | .between col negated lo hi,ts => do
    let idx ← (ts.columnIndex col).toOption
    let low ← sqlTest co (ts.columnType idx) .gte lo
    let high ← sqlTest co (ts.columnType idx) .lte hi
    return fun row => flip negated (Truth.min (low (row.cell idx)) (high (row.cell idx)))
  | .isNull col negated,ts => do
    let idx ← (ts.columnIndex col).toOption
    return fun row => flip negated (Truth.ofBool (decide (row.cell idx = .null)))
  | .inList col negated toks,ts => do
    let idx ← (ts.columnIndex col).toOption
    let tests ← toks.mapM (sqlTest co (ts.columnType idx) .eq)
    return fun row => flip negated (Truth.disj (tests.map fun test => test (row.cell idx)))
  | .inSelect col negated raw project,ts => do
    let idx ← (ts.columnIndex col).toOption
    let inner ← db.schema ("public." ++ raw)
    let p ← (inner.columnIndex project).toOption
    let test ← sqlSelect (ts.columnType idx) (inner.columnType p)
    return fun row => flip negated (test ((db.rows ("public." ++ raw)).map (·.cell p)).toFinset (row.cell idx))
  | .inSelectWhere col negated raw project w,ts => do
    let idx ← (ts.columnIndex col).toOption
    let inner ← db.schema ("public." ++ raw)
    let p ← (inner.columnIndex project).toOption
    let test ← sqlSelect (ts.columnType idx) (inner.columnType p)
    let selects ← sql co db w inner
    return fun row => flip negated
      (test (((db.rows ("public." ++ raw)).filter fun row => decide (selects row = .yes)).map (·.cell p)).toFinset
        (row.cell idx))
  | .const a s b,_ => do
    let t ← sqlConst co a s b
    return fun _ => Truth.ofBool t
  | .not c,ts => do
    let f ← sql co db c ts
    return fun row => (f row).neg
  | .and c d,ts => do
    let f ← sql co db c ts
    let g ← sql co db d ts
    return fun row => Truth.min (f row) (g row)
  | .or c d,ts => do
    let f ← sql co db c ts
    let g ← sql co db d ts
    return fun row => Truth.max (f row) (g row)

/-- The comparisons of constants in a clause. -/
def consts : Clause → List (Tok × String × Tok)
  | .inSelectWhere _ _ _ _ w => w.consts
  | .const a s b => [(a,s,b)]
  | .not c => c.consts
  | .and c d => c.consts ++ d.consts
  | .or c d => c.consts ++ d.consts
  | _ => []

/-- A reference to an inner table names the table that the clause names. -/
def Named : Clause → Prop
  | .inSelect _ _ raw _ => innerTable raw = .ok ("public." ++ raw)
  | .inSelectWhere _ _ raw _ w => innerTable raw = .ok ("public." ++ raw) ∧ w.Named
  | .not c => c.Named
  | .and c d => c.Named ∧ d.Named
  | .or c d => c.Named ∧ d.Named
  | _ => True

/-- What the documentation adds to the derivation: numerals are numbers, constants are compared by an operator,
LIKE takes a string, a null test is on a column of the clause's own table, and an inner table is one that a
reference can name. -/
def Documented (schema : Option TableSchema) : Clause → Prop
  | .compare _ _ _ t => Spelled t
  | .like _ _ t => ∃ s, t = .str s
  | .between _ _ lo hi => Spelled lo ∧ Spelled hi
  | .inList _ _ toks => ∀ t ∈ toks, Spelled t
  | .isNull col _ => checkColumn schema col = .ok ()
  | .inSelect _ _ raw _ => innerTable raw = .ok ("public." ++ raw)
  | .inSelectWhere _ _ raw _ w => innerTable raw = .ok ("public." ++ raw) ∧ w.Documented none
  | .const a s b => Spelled a ∧ (leafOp s).isSome ∧ Spelled b
  | .not c => c.Documented schema
  | .and c d => c.Documented schema ∧ d.Documented schema
  | .or c d => c.Documented schema ∧ d.Documented schema

end Clause

/-- What is written beside a column is something the engine reads at the column's type: on an integer column an
integer, and a string only if it is an integer, a number or one of eight truth values. -/
def Suits (parseF64 : String → Option OrderedFloat) (ty : ColumnType) (t : Tok) : Prop :=
  match ty,t with
  | .int,.num n => (intOf n).isSome
  | .int,.str s => (parseI64 s.toList).isSome
  | .float,.str s => (parseF64 s).isSome
  | .bool,.str s => s ∈ ["t","true","TRUE","True"] ∨ s ∈ ["f","false","FALSE","False"]
  | _,_ => True

namespace Clause
variable (parseF64 : String → Option OrderedFloat) (db : Database)

/-- The constants of a clause suit the columns beside them. -/
def Suits : Clause → TableSchema → Prop
  | .compare col _ _ t,ts => ∀ idx, ts.columnIndex col = .ok idx → WhereSql.Suits parseF64 (ts.columnType idx) t
  | .like col _ t,ts => ∀ idx, ts.columnIndex col = .ok idx → WhereSql.Suits parseF64 (ts.columnType idx) t
  | .between col _ lo hi,ts => ∀ idx, ts.columnIndex col = .ok idx →
    WhereSql.Suits parseF64 (ts.columnType idx) lo ∧ WhereSql.Suits parseF64 (ts.columnType idx) hi
  | .inList col _ toks,ts => ∀ idx, ts.columnIndex col = .ok idx →
    ∀ t ∈ toks, WhereSql.Suits parseF64 (ts.columnType idx) t
  | .inSelectWhere _ _ raw _ w,_ => ∀ inner, db.schema ("public." ++ raw) = some inner → w.Suits inner
  | .not c,ts => c.Suits ts
  | .and c d,ts => c.Suits ts ∧ d.Suits ts
  | .or c d,ts => c.Suits ts ∧ d.Suits ts
  | _,_ => True

/-- No subquery puts an integer beside a double. -/
def Unmixed : Clause → TableSchema → Prop
  | .inSelect col _ raw project,ts => ∀ idx inner p, ts.columnIndex col = .ok idx →
    db.schema ("public." ++ raw) = some inner → inner.columnIndex project = .ok p →
      ¬Widens (ts.columnType idx) (inner.columnType p)
  | .inSelectWhere col _ raw project w,ts =>
    (∀ idx inner p, ts.columnIndex col = .ok idx → db.schema ("public." ++ raw) = some inner →
      inner.columnIndex project = .ok p → ¬Widens (ts.columnType idx) (inner.columnType p)) ∧
    ∀ inner, db.schema ("public." ++ raw) = some inner → w.Unmixed inner
  | .not c,ts => c.Unmixed ts
  | .and c d,ts => c.Unmixed ts ∧ d.Unmixed ts
  | .or c d,ts => c.Unmixed ts ∧ d.Unmixed ts
  | _,_ => True

end Clause

/-- What is relied on of `f64::from_str`: the nearest double of a numeral, and an infinity where there is none in
range. -/
def CorrectlyRounded (parseF64 : String → Option OrderedFloat) : Prop :=
  ∀ n q f, decimalOf n.toList = some q → parseF64 n = some f →
    nearestDouble q = if f.isFinite then some f.key else none

/-- What is relied on of the database: a string that it reads beside a column and the engine reads too is an integer
by its digits, a truth value by its word and a double by the same rounding. -/
structure Coercion.Standard (parseF64 : String → Option OrderedFloat) (co : Coercion) : Prop where
  int : ∀ s i v, parseI64 s.toList = some i → co.cell .int s = some v → v = .int i
  float : ∀ s f v, parseF64 s = some f → co.cell .float s = some v → ∃ g, v = .float g ∧ g.key = f.key
  yes : ∀ s v, s ∈ ["t","true","TRUE","True"] → co.cell .bool s = some v → v = .bool true
  no : ∀ s v, s ∈ ["f","false","FALSE","False"] → co.cell .bool s = some v → v = .bool false

end WhereSql

/-- Each cell is NULL or of the type of its column. -/
def TableSchema.Typed (ts : TableSchema) (row : Row) : Prop :=
  ∀ i, row.cell i = .null ∨ (row.cell i).HasType (ts.columnType i)

namespace Database
variable (parseF64 : String → Option OrderedFloat) (db : Database)

def Typed : Prop := ∀ table ts, db.schema table = some ts → ∀ row ∈ db.rows table, ts.Typed row

mutual

/-- A predicate compiles against a table, and its subqueries against theirs. -/
def Compiles : PredicateJson → TableSchema → Prop
  | .leaf col _ v,ts => ∃ idx, ts.columnIndex col = .ok idx ∧
    ∃ c, Value.literalFromJson parseF64 v.json (ts.columnType idx) = .ok c
  | .isNull col _,ts => ∃ idx, ts.columnIndex col = .ok idx
  | .and ps,ts => CompileAll ps ts
  | .or ps,ts => CompileAll ps ts
  | .not p,ts => Compiles p ts
  | .inSubquery col _ table project w,ts => (∃ idx, ts.columnIndex col = .ok idx) ∧
    ∃ inner, db.schema table = some inner ∧ (∃ p, inner.columnIndex project = .ok p) ∧ CompilesWhere w inner

def CompileAll : List PredicateJson → TableSchema → Prop
  | [],_ => True
  | p :: ps,ts => Compiles p ts ∧ CompileAll ps ts

def CompilesWhere : Option PredicateJson → TableSchema → Prop
  | none,_ => True
  | some p,ts => Compiles p ts

end
end Database

namespace WhereSql
open ThreeValued

/-! The numerals as the parser reads them. -/

lemma decimalOf_digits {s : List Char} (hne : s ≠ []) (hall : ∀ c ∈ s, c.isDigit = true) (negative : Bool) :
    decimalOf (if negative then '-' :: s else s) =
      some ((if negative then -1 else 1)*(Nat.ofDigitChars 10 s 0 : ℚ)) := by
  have htake : s.takeWhile Char.isDigit = s := List.takeWhile_eq_self_iff.mpr hall
  have hdrop : s.dropWhile Char.isDigit = [] := List.dropWhile_eq_nil_iff.mpr hall
  cases negative with
  | true => simp [decimalOf,htake,hdrop,hne]
  | false =>
    have hminus : s.head? ≠ some '-' := fun h =>
      absurd (hall _ (List.mem_of_mem_head? h)) (by decide)
    simp [decimalOf,htake,hdrop,hne,hminus]

lemma digits_of_parseUnsigned {max n : ℕ} {s : List Char} (h : parseUnsigned 10 max s = some n)
    (hplus : s.head? ≠ some '+') : s ≠ [] ∧ (∀ c ∈ s, c.isDigit = true) ∧ Nat.ofDigitChars 10 s 0 = n := by
  simp only [parseUnsigned,if_neg hplus] at h
  split at h
  · cases h
  · next hne =>
    obtain ⟨ds,hds,hn⟩ := Option.bind_eq_some_iff.mp h
    have hdigit : ∀ (s : List Char) ds m, (s.mapM fun c =>
        let d :=
          if c.isDigit then c.toNat - '0'.toNat
          else if c.isLower then c.toNat - 'a'.toNat + 10
          else if c.isUpper then c.toNat - 'A'.toNat + 10
          else 10
        if d < 10 then some d else none) = some ds →
        (∀ c ∈ s, c.isDigit = true) ∧ Nat.ofDigitChars 10 s m = ds.foldl (fun n d => n*10+d) m := by
      intro s
      induction s with
      | nil =>
        rintro ds m ⟨⟩
        exact ⟨by simp,rfl⟩
      | cons c s ih =>
        intro ds m hds
        rw [List.mapM_cons] at hds
        obtain ⟨d,hd,hds⟩ := Option.bind_eq_some_iff.mp hds
        obtain ⟨ds',hds',hds⟩ := Option.bind_eq_some_iff.mp hds
        cases hds
        have hc : c.isDigit = true ∧ d = c.toNat - '0'.toNat := by
          dsimp only at hd
          split_ifs at hd with hdig <;> first
          | exact ⟨hdig,(Option.some.inj hd).symm⟩
          | exact absurd ‹_ + 10 < 10› (Nat.not_lt.mpr (Nat.le_add_left 10 _))
        obtain ⟨hall,hfold⟩ := ih ds' (m*10+d) hds'
        refine ⟨List.forall_mem_cons.mpr ⟨hc.1,hall⟩,?_⟩
        rw [Nat.ofDigitChars_cons,List.foldl_cons,← hfold,hc.2,Nat.mul_comm]
    obtain ⟨hall,hfold⟩ := hdigit s ds 0 hds
    refine ⟨by simpa using hne,hall,?_⟩
    split at hn
    · exact hfold.trans (Option.some.inj hn)
    · cases hn

lemma eq_of_parseI64 {s : List Char} {i : ℤ} {q : ℚ} (h : parseI64 s = some i) (hq : decimalOf s = some q) :
    q = i := by
  unfold parseI64 at h
  split at h
  · next hminus =>
    obtain ⟨t,rfl⟩ := List.head?_eq_some_iff.mp hminus
    split at h
    · cases h
    · next hplus =>
      cases hn : parseUnsigned 10 (2^63+1) t with
      | none =>
        rw [List.tail_cons,hn] at h
        cases h
      | some n =>
      rw [List.tail_cons,hn] at h
      obtain rfl : -(n : ℤ) = i := Option.some.inj h
      obtain ⟨hne,hall,rfl⟩ := digits_of_parseUnsigned hn hplus
      have hsome := decimalOf_digits hne hall true
      rw [if_pos rfl,hq] at hsome
      rw [Option.some.inj hsome]
      push_cast
      simp
  · next hminus =>
    cases hn : parseUnsigned 10 (2^63) s with
    | none =>
      rw [hn] at h
      cases h
    | some n =>
    rw [hn] at h
    obtain rfl : (n : ℤ) = i := Option.some.inj h
    by_cases hplus : s.head? = some '+'
    · -- SQL has no numeral with a plus
      obtain ⟨t,rfl⟩ := List.head?_eq_some_iff.mp hplus
      have hnone : decimalOf ('+' :: t) = none := by simp [decimalOf]
      rw [hnone] at hq
      cases hq
    · obtain ⟨hne,hall,rfl⟩ := digits_of_parseUnsigned hn hplus
      have hsome := decimalOf_digits hne hall false
      rw [if_neg Bool.false_ne_true,hq] at hsome
      rw [Option.some.inj hsome]
      push_cast
      simp

section Doubles
variable {q : ℚ} {k : ℤ}

lemma nearest_of_nearestDouble (h : nearestDouble q = some k) :
    Binary64.Nearest k q ∧ k.natAbs < 0x7FF0000000000000 := by
  rw [nearestDouble] at h
  split at h
  · next hex =>
    obtain rfl := Option.some.inj h
    exact hex.choose_spec
  · cases h

lemma nearestDouble_eq (h : Binary64.Nearest k q) (hk : k.natAbs < 0x7FF0000000000000) :
    nearestDouble q = some k := by
  have hex : ∃ k : ℤ, Binary64.Nearest k q ∧ k.natAbs < 0x7FF0000000000000 := ⟨k,h,hk⟩
  rw [nearestDouble,dif_pos hex,Binary64.nearest_unique hex.choose_spec.1 h]

end Doubles

/-- A number as the double that the parser compares. -/
def double (j : Json) : ℤ := (j.asF64.map OrderedFloat.key).getD 0

lemma natAbs_key {f : OrderedFloat} (h : f.isFinite = true) : f.key.natAbs < 0x7FF0000000000000 := by
  have hmag : f.magnitude < 0x7FF0000000000000 := of_decide_eq_true h
  have hnan : f.isNan = false := decide_eq_false (by omega)
  rw [OrderedFloat.key,hnan,if_neg Bool.false_ne_true]
  split <;> simpa using hmag

section Literals
variable {parseF64 : String → Option OrderedFloat} {n : String} {t : Tok} {v : Literal} {ty : ColumnType} {q : ℚ}

/-- A numeral is an integer if it is written as one, and otherwise a finite double. -/
lemma numLiteral_cases (h : numLiteral parseF64 n = .ok v) :
    (∃ i, intOf n = some i ∧ v.json = .int i) ∨
      (intOf n = none ∧ ∃ f, parseF64 n = some f ∧ f.isFinite = true ∧ v.json = .float f) := by
  unfold numLiteral at h
  dsimp only at h
  rw [← intOf] at h
  cases hint : intOf n with
  | some i =>
    rw [hint] at h
    cases h
    exact .inl ⟨i,rfl,rfl⟩
  | none =>
    rw [hint] at h
    dsimp only at h
    split at h
    · cases h
    · next f hf =>
      split at h
      · next hfin =>
        cases h
        exact .inr ⟨rfl,f,hf,hfin,rfl⟩
      · cases h

lemma parseI64_of_intOf {i : ℤ} (h : intOf n = some i) : parseI64 n.toList = some i := by
  rw [intOf] at h
  split at h
  · cases h
  · exact h

lemma nearest_of_intOf {i : ℤ} (h : intOf n = some i) : nearestDouble i = some (OrderedFloat.ofInt i).key := by
  have hrange := parseI64_range (parseI64_of_intOf h)
  obtain ⟨hnear,hfin⟩ := OrderedFloat.nearest_ofInt (i := i) (by omega)
  exact nearestDouble_eq hnear (natAbs_key hfin)

/-- The double that a numeral is read as is the one nearest to it. -/
lemma nearest_of_numLiteral (hround : CorrectlyRounded parseF64) (h : numLiteral parseF64 n = .ok v)
    (hq : decimalOf n.toList = some q) : nearestDouble q = some (double v.json) := by
  rcases numLiteral_cases h with ⟨i,hi,hv⟩ | ⟨-,f,hf,hfin,hv⟩
  · rw [eq_of_parseI64 (parseI64_of_intOf hi) hq,nearest_of_intOf hi,hv]
    rfl
  · rw [hround n q f hq hf,if_pos hfin,hv]
    rfl

end Literals

section Leaves
variable {parseF64 : String → Option OrderedFloat} {co : Coercion} {ty : ColumnType} {op : LeafOp} {t : Tok}
  {v : Literal} {x w : Value}

/-- A comparison of two cells of one type is what the operator says of their order. -/
lemma sqlCmp_eq_truthOf (hop : op ≠ .like) (hx : x = .null ∨ x.HasType ty) (hw : w.HasType ty) :
    sqlCmp x op w = truthOf op (x.ordering w) := by
  rcases hx with rfl | hx
  · have hnone : Value.null.ordering w = none := by cases w <;> rfl
    rw [hnone,truthOf]
    unfold sqlCmp
    rw [if_pos (.inl rfl)]
  · have hrank := hx.rank_eq hw
    rw [Value.ordering_eq,if_pos ⟨hrank,hx.ne_null⟩,truthOf,sqlCmp_eq_holds hop hx.ne_null hw.ne_null hrank]

/-- What suits an integer column is compiled to the integer that SQL reads. -/
lemma ordering_int {n : String} {q : ℚ} (hv : numLiteral parseF64 n = .ok v) (hq : decimalOf n.toList = some q) :
    ((∃ w, Value.literalFromJson parseF64 v.json .int = .ok w) ↔ (intOf n).isSome) ∧
      ∀ w, Value.literalFromJson parseF64 v.json .int = .ok w → ∃ i : ℤ, w = .int i ∧ q = i := by
  rcases numLiteral_cases hv with ⟨i,hi,hjson⟩ | ⟨hnone,f,-,-,hjson⟩
  · have hrange := parseI64_range (parseI64_of_intOf hi)
    have hread : Value.literalFromJson parseF64 v.json .int = .ok (.int i) := by
      rw [hjson]
      simp only [Value.literalFromJson,Value.fromJson,Json.asI64,if_pos hrange]
    rw [hread,hi]
    refine ⟨iff_of_true ⟨_,rfl⟩ rfl,?_⟩
    rintro w ⟨⟩
    exact ⟨i,rfl,eq_of_parseI64 (parseI64_of_intOf hi) hq⟩
  · rw [hjson,hnone]
    refine ⟨iff_of_false ?_ Bool.false_ne_true,fun w hw => ?_⟩
    · rintro ⟨w,hw⟩
      cases hw
    · cases hw

/-- A numeral beside a double is compiled to the nearest double. -/
lemma ordering_float {n : String} (hv : numLiteral parseF64 n = .ok v) :
    ∃ f, Value.literalFromJson parseF64 v.json .float = .ok (.float f) ∧ double v.json = f.key := by
  rcases numLiteral_cases hv with ⟨i,-,hjson⟩ | ⟨-,f,-,-,hjson⟩
  · exact ⟨.ofInt i,by rw [hjson]; rfl,by rw [hjson]; rfl⟩
  · exact ⟨f,by rw [hjson]; rfl,by rw [hjson]; rfl⟩

variable (parseF64 ty t v) in
/-- A constant compiles exactly when it suits the column, and to a value that the cells are ordered by as `ord` has it. -/
def CompilesAs (ord : Value → Option Ordering) : Prop :=
  ((∃ w, Value.literalFromJson parseF64 v.json ty = .ok w) ↔ Suits parseF64 ty t) ∧
    ∀ w, Value.literalFromJson parseF64 v.json ty = .ok w →
      w.HasType ty ∧ ∀ x : Value, x = .null ∨ x.HasType ty → x.ordering w = ord x

section
variable {ord : Value → Option Ordering}

lemma CompilesAs.of_ok (h : Value.literalFromJson parseF64 v.json ty = .ok w) (hsuits : Suits parseF64 ty t)
    (htype : w.HasType ty) (hord : ∀ x : Value, x = .null ∨ x.HasType ty → x.ordering w = ord x) :
    CompilesAs parseF64 ty t v ord := by
  refine ⟨iff_of_true ⟨w,h⟩ hsuits,fun u hu => ?_⟩
  obtain rfl := Except.ok.inj (h.symm.trans hu)
  exact ⟨htype,hord⟩

lemma CompilesAs.of_error {e : String} (h : Value.literalFromJson parseF64 v.json ty = .error e)
    (hsuits : ¬Suits parseF64 ty t) : CompilesAs parseF64 ty t v ord := by
  refine ⟨iff_of_false ?_ hsuits,fun u hu => ?_⟩
  · rintro ⟨u,hu⟩
    cases h.symm.trans hu
  · cases h.symm.trans hu

lemma compilesAs_num {n : String} (hround : CorrectlyRounded parseF64) (hord : cellOrd co ty (.num n) = some ord)
    (hv : numLiteral parseF64 n = .ok v) : CompilesAs parseF64 ty (.num n) v ord := by
  cases ty with
  | int =>
    obtain ⟨q,hq,rfl⟩ := Option.map_eq_some_iff.mp hord
    obtain ⟨hsuits,hread⟩ := ordering_int hv hq
    refine ⟨hsuits,fun w hw => ?_⟩
    obtain ⟨i,rfl,rfl⟩ := hread w hw
    refine ⟨trivial,fun x hx => ?_⟩
    cases x with
    | int j =>
      have hcast := Value.compare_congr (x := j) (y := i) (u := (j : ℚ)) (v := (i : ℚ)) (by simp) (by simp)
      exact congrArg some hcast
    | _ => rfl
  | float =>
    obtain ⟨k,hk,rfl⟩ := Option.map_eq_some_iff.mp hord
    obtain ⟨q,hq,hk⟩ := Option.bind_eq_some_iff.mp hk
    obtain ⟨f,hread,hkey⟩ := ordering_float hv
    rw [nearest_of_numLiteral hround hv hq] at hk
    obtain rfl : double v.json = k := Option.some.inj hk
    refine .of_ok hread trivial trivial fun x hx => ?_
    cases x with
    | float g => rw [hkey]; rfl
    | _ => rfl
  | _ => cases hord

lemma compilesAs_str {s : String} (hco : co.Standard parseF64) (hord : cellOrd co ty (.str s) = some ord) :
    CompilesAs parseF64 ty (.str s) ⟨.string s,rfl⟩ ord := by
  cases ty with
  | text =>
    cases hord
    exact .of_ok rfl trivial trivial fun _ _ => rfl
  | int =>
    obtain ⟨u,hu,rfl⟩ := Option.map_eq_some_iff.mp hord
    cases hi : parseI64 s.toList with
    | none => exact .of_error (by simp only [Value.literalFromJson,hi]; rfl) (by simp [Suits,hi])
    | some i =>
      obtain rfl := hco.int s i u hi hu
      have hread : Value.literalFromJson parseF64 (.string s) .int = .ok (.int i) := by
        simp only [Value.literalFromJson,hi]
      exact .of_ok hread (by simp [Suits,hi]) trivial fun _ _ => rfl
  | float =>
    obtain ⟨u,hu,rfl⟩ := Option.map_eq_some_iff.mp hord
    cases hf : parseF64 s with
    | none => exact .of_error (by simp only [Value.literalFromJson,hf]; rfl) (by simp [Suits,hf])
    | some f =>
      obtain ⟨g,rfl,hkey⟩ := hco.float s f u hf hu
      have hread : Value.literalFromJson parseF64 (.string s) .float = .ok (.float f) := by
        simp only [Value.literalFromJson,hf]
      refine .of_ok hread (by simp [Suits,hf]) trivial fun x hx => ?_
      cases x with
      | float y => exact congrArg some (by rw [hkey])
      | _ => rfl
  | bool =>
    obtain ⟨u,hu,rfl⟩ := Option.map_eq_some_iff.mp hord
    by_cases hyes : s ∈ ["t","true","TRUE","True"]
    · obtain rfl := hco.yes s u hyes hu
      have hread : Value.literalFromJson parseF64 (.string s) .bool = .ok (.bool true) := if_pos hyes
      exact .of_ok hread (.inl hyes) trivial fun _ _ => rfl
    · by_cases hno : s ∈ ["f","false","FALSE","False"]
      · obtain rfl := hco.no s u hno hu
        have hread : Value.literalFromJson parseF64 (.string s) .bool = .ok (.bool false) :=
          (if_neg hyes).trans (if_pos hno)
        exact .of_ok hread (.inr hno) trivial fun _ _ => rfl
      · exact .of_error (by simp only [Value.literalFromJson,if_neg hyes,if_neg hno]; rfl) (not_or.mpr ⟨hyes,hno⟩)

/-- A constant that SQL compares with a column compiles exactly when it suits the column, and to what SQL reads. -/
theorem cellOrd_reads (hround : CorrectlyRounded parseF64) (hco : co.Standard parseF64)
    (hord : cellOrd co ty t = some ord) (hv : literal parseF64 t = .ok v) : CompilesAs parseF64 ty t v ord := by
  cases t with
  | num n => exact compilesAs_num hround hord hv
  | str s =>
    cases hv
    exact compilesAs_str hco hord
  | true =>
    cases hv
    cases ty <;> cases hord
    exact .of_ok rfl trivial trivial fun _ _ => rfl
  | false =>
    cases hv
    cases ty <;> cases hord
    exact .of_ok rfl trivial trivial fun _ _ => rfl
  | _ => cases hv

end

/-- The leaf of a comparison that SQL has, once it compiles, has SQL's value on every cell of the column. -/
theorem sqlTest_reads (hround : CorrectlyRounded parseF64) (hco : co.Standard parseF64) {test : Value → Truth}
    (htest : sqlTest co ty op t = some test) (hv : literal parseF64 t = .ok v) :
    ((∃ w, Value.literalFromJson parseF64 v.json ty = .ok w) ↔ Suits parseF64 ty t) ∧
      ∀ w, Value.literalFromJson parseF64 v.json ty = .ok w →
        ∀ x : Value, x = .null ∨ x.HasType ty → sqlCmp x op w = test x := by
  unfold sqlTest at htest
  split at htest
  · next hop =>
    subst hop
    split at htest
    · cases hv
      cases htest
      refine ⟨iff_of_true ⟨_,rfl⟩ trivial,?_⟩
      rintro w ⟨⟩
      exact fun _ _ => rfl
    · cases htest
  · next hop =>
    obtain ⟨ord,hord,rfl⟩ := Option.map_eq_some_iff.mp htest
    obtain ⟨hsuits,hread⟩ := cellOrd_reads hround hco hord hv
    refine ⟨hsuits,fun w hw x hx => ?_⟩
    obtain ⟨hwt,hordering⟩ := hread w hw
    rw [sqlCmp_eq_truthOf hop hx hwt,hordering x hx]

/-- The leaf of a comparison against a table. -/
lemma leafTruth_reads (hround : CorrectlyRounded parseF64) (hco : co.Standard parseF64) {ts : TableSchema}
    {col : String} {idx : ℕ} {test : Value → Truth} (hidx : ts.columnIndex col = .ok idx)
    (htest : sqlTest co (ts.columnType idx) op t = some test) (hv : literal parseF64 t = .ok v) :
    ((∃ i, ts.columnIndex col = .ok i ∧ ∃ w, Value.literalFromJson parseF64 v.json (ts.columnType i) = .ok w) ↔
      Suits parseF64 (ts.columnType idx) t) ∧
    (Suits parseF64 (ts.columnType idx) t → ∀ row, ts.Typed row →
      Database.leafTruth parseF64 ts row col op v.json = test (row.cell idx)) := by
  obtain ⟨hsuits,hread⟩ := sqlTest_reads hround hco htest hv
  refine ⟨⟨?_,fun h => ⟨idx,hidx,hsuits.mpr h⟩⟩,fun h row hrow => ?_⟩
  · rintro ⟨i,hi,hw⟩
    obtain rfl : idx = i := Except.ok.inj (hidx.symm.trans hi)
    exact hsuits.mp hw
  · obtain ⟨w,hw⟩ := hsuits.mpr h
    rw [Database.leafTruth,hidx]
    simp only [hw]
    exact hread w hw _ (hrow idx)

end Leaves

/-- Columns that need no widening are compared as they are. -/
lemma sqlSelect_eq {ty ty' : ColumnType} {test : Finset Value → Value → Truth} (h : sqlSelect ty ty' = some test)
    (hwidens : ¬Widens ty ty') : test = fun values x => sqlIn (fun _ => values) "" x := by
  by_cases hty : ty = ty'
  · rw [sqlSelect,if_pos hty] at h
    exact (Option.some.inj h).symm
  · rw [sqlSelect,if_neg hty,if_neg hwidens] at h
    cases h

end WhereSql
end ElectricCircuits
