import ElectricCircuits.Schema
import ElectricCircuits.SqlSemantics
import Mathlib.Data.Int.ConditionallyCompleteOrder
import Mathlib.Data.Prod.Lex
import Mathlib.Order.WithBot

/-! The order of a subset's rows on the client, the cursor predicate of its next page, and their agreement
with the order that the database sorts a page in. -/
namespace ElectricCircuits
open ThreeValued

/-- A NULL is of every type. -/
def Value.OfType (ty : ColumnType) : Value → Prop
  | .null => True
  | .int _ => ty = .int
  | .text _ => ty = .text
  | .bool _ => ty = .bool
  | .float _ => ty = .float

/-- What a subset is opened with: the columns' types, the key column, the order (a column, and whether it is
descending), the page size, the rows to skip, and the base filter. -/
structure SubsetDef where
  types : ℕ → ColumnType
  pk : ℕ
  orderBy : Option (ℕ × Bool)
  limit : ℕ
  offset : ℕ
  selects : Row → Bool
  /-- How a double prints. -/
  doubleText : OrderedFloat → String

namespace SubsetDef
variable (d : SubsetDef)

/-- A row of the table: its cells are of the columns' types, and its key is not NULL. -/
structure TypedRow where
  row : Row
  typed : ∀ i, (row.cell i).OfType (d.types i)
  key : row.cell d.pk ≠ .null

/-- `String(v)`. -/
def text : Value → String
  | .null => "null"
  | .int i => toString i
  | .float f => d.doubleText f
  | .text s => s
  | .bool b => if b then "true" else "false"

/-- Two cells of a column of some type; a NULL comes last. -/
def cmpVal (a b : Value) (ty : ColumnType) : Ordering :=
  if a = b then .eq
  else if a = .null then .gt
  else if b = .null then .lt
  else
    match ty,a,b with
    | .int,.int x,.int y => compare x y
    | _,.float x,.float y => compare x.key y.key
    | _,a,b => compare (d.text a) (d.text b)

/-- Descending is the reverse of ascending. -/
def directed (desc : Bool) (o : Ordering) : Ordering := if desc then o.swap else o

/-- `makeCmp`: the order column, then the key, both in the same direction. -/
def cmp (a b : d.TypedRow) : Ordering :=
  match d.orderBy with
  | some (col,desc) =>
    (directed desc (d.cmpVal (a.row.cell col) (b.row.cell col) (d.types col))).then
      (directed desc (d.cmpVal (a.row.cell d.pk) (b.row.cell d.pk) (d.types d.pk)))
  | none => d.cmpVal (a.row.cell d.pk) (b.row.cell d.pk) (d.types d.pk)

/-- The rows strictly after one in the order. -/
def cursorPredicate (b : d.TypedRow) : CompiledPredicate :=
  let bpk := b.row.cell d.pk
  match d.orderBy with
  | none => .cmp d.pk .gt bpk
  | some (col,desc) =>
    let pkOp := if desc then LeafOp.lt else .gt
    let colOp := if desc then LeafOp.lt else .gt
    let bcol := b.row.cell col
    let nullBlockAfter := .and [.isNull col true,.cmp d.pk pkOp bpk]
    if bcol = .null then if desc then .or [nullBlockAfter,.isNull col false] else nullBlockAfter
    else
      let after := .or [.cmp col colOp bcol,.and [.cmp col .eq bcol,.cmp d.pk pkOp bpk]]
      if desc then after else .or [after,.isNull col true]

/-- The place of a cell in the database's ascending order. -/
def place (v : Value) : WithTop (ℕ ×ₗ ℤ ×ₗ String) := if v = .null then ⊤ else v.code

lemma place_ne_top {v : Value} (hv : v ≠ .null) : place v = v.code := if_neg hv

/-- The client compares cells of one type as the database does. -/
theorem cmpVal_eq {a b : Value} {ty : ColumnType} (ha : a.OfType ty) (hb : b.OfType ty) :
    d.cmpVal a b ty = compare (place a) (place b) := by
  unfold cmpVal
  by_cases hab : a = b
  · rw [if_pos hab,hab,compare_eq_iff_eq.mpr rfl]
  rw [if_neg hab]
  by_cases hna : a = .null
  · rw [if_pos hna,hna,place_ne_top (fun hn => hab (hna.trans hn.symm))]
    exact (compare_gt_iff_gt.mpr (WithTop.coe_lt_top _)).symm
  rw [if_neg hna]
  by_cases hnb : b = .null
  · rw [if_pos hnb,hnb,place_ne_top hna]
    exact (compare_lt_iff_lt.mpr (WithTop.coe_lt_top _)).symm
  rw [if_neg hnb,place_ne_top hna,place_ne_top hnb]
  cases ty with
  | int =>
    obtain ⟨x,rfl⟩ : ∃ x, a = .int x := by cases a <;> simp_all [Value.OfType]
    obtain ⟨y,rfl⟩ : ∃ y, b = .int y := by cases b <;> simp_all [Value.OfType]
    exact Value.compare_congr (by simp [Value.code,Prod.Lex.toLex_lt_toLex]) (by simp [Value.code])
  | text =>
    obtain ⟨x,rfl⟩ : ∃ x, a = .text x := by cases a <;> simp_all [Value.OfType]
    obtain ⟨y,rfl⟩ : ∃ y, b = .text y := by cases b <;> simp_all [Value.OfType]
    exact Value.compare_congr (by simp [Value.code,Prod.Lex.toLex_lt_toLex,text]) (by simp [Value.code,text])
  | float =>
    obtain ⟨x,rfl⟩ : ∃ x, a = .float x := by cases a <;> simp_all [Value.OfType]
    obtain ⟨y,rfl⟩ : ∃ y, b = .float y := by cases b <;> simp_all [Value.OfType]
    exact Value.compare_congr (by simp [Value.code,Prod.Lex.toLex_lt_toLex]) (by simp [Value.code])
  | bool =>
    obtain ⟨x,rfl⟩ : ∃ x, a = .bool x := by cases a <;> simp_all [Value.OfType]
    obtain ⟨y,rfl⟩ : ∃ y, b = .bool y := by cases b <;> simp_all [Value.OfType]
    -- the texts of the two truth values are in the order of the values
    have hlt : "false" < "true" := by decide +kernel
    have hne : "false" ≠ "true" := by decide
    have hnot := hlt.asymm
    cases x <;> cases y <;> first
      | exact absurd rfl hab
      | exact Value.compare_congr (by simp [Value.code,Prod.Lex.toLex_lt_toLex,text,hlt,hnot])
          (by simp [Value.code,text,hne,hne.symm])

instance (desc : Bool) {α : Type*} (f : α → WithTop (ℕ ×ₗ ℤ ×ₗ String)) :
    Std.TransCmp fun a b => directed desc (compare (f a) (f b)) := by
  cases desc with
  | false => exact inferInstanceAs (Std.TransCmp (compareOn f))
  | true =>
    have h : (fun a b => directed true (compare (f a) (f b))) = fun a b => compareOn f b a := by
      funext a b
      exact Std.OrientedOrd.eq_swap.symm
    rw [h]
    infer_instance

/-- The client's order as the database's: by the order column and then by the key. -/
lemma cmp_eq (a b : d.TypedRow) : d.cmp a b =
    match d.orderBy with
    | some (col,desc) =>
      (directed desc (compare (place (a.row.cell col)) (place (b.row.cell col)))).then
        (directed desc (compare (place (a.row.cell d.pk)) (place (b.row.cell d.pk))))
    | none => compare (place (a.row.cell d.pk)) (place (b.row.cell d.pk)) := by
  unfold cmp
  cases d.orderBy with
  | none => exact d.cmpVal_eq (a.typed _) (b.typed _)
  | some o =>
    dsimp only
    rw [d.cmpVal_eq (a.typed _) (b.typed _),d.cmpVal_eq (a.typed _) (b.typed _)]

instance : Std.TransCmp d.cmp := by
  cases ho : d.orderBy with
  | none =>
    have h : d.cmp = fun a b => directed false (compare (place (a.row.cell d.pk)) (place (b.row.cell d.pk))) := by
      funext a b
      rw [cmp_eq,ho]
      rfl
    rw [h]
    infer_instance
  | some o =>
    have h : d.cmp = compareLex
        (fun a b => directed o.2 (compare (place (a.row.cell o.1)) (place (b.row.cell o.1))))
        (fun a b => directed o.2 (compare (place (a.row.cell d.pk)) (place (b.row.cell d.pk)))) := by
      funext a b
      rw [cmp_eq,ho]
      rfl
    rw [h]
    infer_instance

lemma rank_eq {a b : Value} {ty : ColumnType} (ha : a.OfType ty) (hb : b.OfType ty) (hna : a ≠ .null)
    (hnb : b ≠ .null) : a.rank = b.rank := by
  cases a <;> cases b <;> simp_all [Value.OfType,Value.rank,Value.code]

lemma then_eq_lt (o o' : Ordering) : o.then o' = .lt ↔ o = .lt ∨ o = .eq ∧ o' = .lt := by
  cases o <;> simp [Ordering.then]

lemma directed_eq_eq {α : Type*} [LinearOrder α] (desc : Bool) (x y : α) :
    directed desc (compare x y) = .eq ↔ x = y := by
  cases desc <;> simp [directed]

lemma directed_eq_lt {α : Type*} [LinearOrder α] (desc : Bool) (x y : α) :
    directed desc (compare x y) = .lt ↔ if desc then y < x else x < y := by
  cases desc <;> simp [directed,compare_lt_iff_lt,compare_gt_iff_gt]

/-- A strict comparison with a constant finds the cells after it, NULL apart. -/
lemma sqlCmp_after {v b : Value} {ty : ColumnType} (hv : v.OfType ty) (hb : b.OfType ty) (hnb : b ≠ .null)
    (desc : Bool) : sqlCmp v (if desc then .lt else .gt) b = .yes ↔
      v ≠ .null ∧ if desc then place v < place b else place b < place v := by
  by_cases hnv : v = .null
  · simp [sqlCmp,hnv]
  · have hrank := rank_eq hv hb hnv hnb
    rw [place_ne_top hnv,place_ne_top hnb,WithTop.coe_lt_coe,WithTop.coe_lt_coe]
    cases desc <;> simp [sqlCmp,hnv,hnb,hrank]

lemma sqlCmp_eq {v b : Value} (hnb : b ≠ .null) : sqlCmp v .eq b = .yes ↔ place b = place v := by
  by_cases hnv : v = .null
  · simp [sqlCmp,hnv,place,hnb]
  · rw [place_ne_top hnv,place_ne_top hnb,WithTop.coe_inj]
    simp [sqlCmp,hnv,hnb,eq_comm (a := v.code)]

/-- A cell that is NULL stands at the top. -/
lemma place_eq_top (v : Value) : place v = ⊤ ↔ v = .null := by
  by_cases hnv : v = .null <;> simp [place,hnv]

/-- The cursor finds exactly the rows after the one that it was made from. -/
theorem cursorPredicate_spec (b r : d.TypedRow) (S : Assignment) :
    (d.cursorPredicate b).sqlEval r.row S = .yes ↔ d.cmp b r = .lt := by
  have hpk := fun desc => sqlCmp_after (r.typed d.pk) (b.typed d.pk) b.key desc
  simp only [r.key,ne_eq,not_false_eq_true,true_and] at hpk
  rw [cmp_eq,cursorPredicate]
  cases d.orderBy with
  | none => exact (hpk false).trans compare_lt_iff_lt.symm
  | some o =>
    obtain ⟨col,desc⟩ := o
    dsimp only
    rw [then_eq_lt,directed_eq_eq,directed_eq_lt,directed_eq_lt,← hpk]
    by_cases hnb : b.row.cell col = .null
    · have htop := (place_eq_top (b.row.cell col)).mpr hnb
      have hnr := place_eq_top (r.row.cell col)
      rw [if_pos hnb,htop,eq_comm (a := ⊤),hnr]
      cases desc
      · simp [CompiledPredicate.sqlEval,CompiledPredicate.sqlEvals,Truth.min_eq_yes]
      · simp [CompiledPredicate.sqlEval,CompiledPredicate.sqlEvals,Truth.min_eq_yes,Truth.max_eq_yes,
          lt_top_iff_ne_top,hnr,or_comm]
    · have hcol := sqlCmp_after (r.typed col) (b.typed col) hnb desc
      have heq := sqlCmp_eq (v := r.row.cell col) hnb
      have hb : place (b.row.cell col) < ⊤ := lt_top_iff_ne_top.mpr fun ht => hnb ((place_eq_top _).mp ht)
      rw [if_neg hnb]
      cases desc
      · -- the NULLs come after every other cell
        have hlt : place (b.row.cell col) < place (r.row.cell col) ↔
            sqlCmp (r.row.cell col) .gt (b.row.cell col) = .yes ∨ r.row.cell col = .null := by
          by_cases hnr : r.row.cell col = .null
          · rw [(place_eq_top _).mpr hnr]
            exact iff_of_true hb (.inr hnr)
          · simpa [hnr] using hcol.symm
        simp [CompiledPredicate.sqlEval,CompiledPredicate.sqlEvals,Truth.min_eq_yes,Truth.max_eq_yes,
          hlt,heq,or_assoc,or_comm]
      · have hlt : place (r.row.cell col) < place (b.row.cell col) ↔
            sqlCmp (r.row.cell col) .lt (b.row.cell col) = .yes := by
          refine ⟨fun h => hcol.mpr ⟨fun hnr => ?_,h⟩,fun h => (hcol.mp h).2⟩
          exact absurd h ((place_eq_top _).mpr hnr ▸ not_top_lt)
        simp [CompiledPredicate.sqlEval,CompiledPredicate.sqlEvals,Truth.min_eq_yes,Truth.max_eq_yes,hlt,heq]

end SubsetDef
end ElectricCircuits
