import ElectricCircuits.WhereGrammar
import ElectricCircuits.WhereTokens

/-! Which clauses the parser takes with SQL's meaning: the comparisons of constants, the null tests of inner
tables and the clauses that only the parser knows. -/
namespace ElectricCircuits
namespace WhereSql
open ThreeValued

/-- The families of constants. -/
inductive Kind where
  | number
  | text
  | truth
  deriving DecidableEq

def kind : Tok → Kind
  | .num _ => .number
  | .str _ => .text
  | _ => .truth

/-- Two numerals that the parser compares as the numbers they stand for. An equality is one of integers, or of
doubles that differ if the numbers do; an integer and a double are different. An order is that of the nearest
doubles. -/
def NumbersFit (op : LeafOp) (x y : String) (p q : ℚ) : Prop :=
  match op with
  | .eq => EqualFits
  | .neq => EqualFits
  | .lt => p < q → nearestDouble p ≠ nearestDouble q
  | .gte => p < q → nearestDouble p ≠ nearestDouble q
  | .gt => q < p → nearestDouble p ≠ nearestDouble q
  | .lte => q < p → nearestDouble p ≠ nearestDouble q
  | .like => True
where
  EqualFits : Prop :=
    if (intOf x).isSome = (intOf y).isSome then (intOf x).isSome ∨ (nearestDouble p = nearestDouble q → p = q)
    else p ≠ q

/-- An order that an operator finds in no case, or in every case if it asks for a difference. -/
def Apart (op : LeafOp) (o : Ordering) : Prop :=
  match op with
  | .eq => o ≠ .eq
  | .neq => o ≠ .eq
  | .lt => o ≠ .lt
  | .lte => o = .gt
  | .gt => o ≠ .gt
  | .gte => o = .lt
  | .like => True

/-- Constants of one family compare as such, numbers only where they fit; constants of two families are different
and without an order. -/
def Fine (co : Coercion) (a : Tok) (op : LeafOp) (b : Tok) : Prop :=
  if kind a = kind b then
    ∀ x y p q, a = .num x → b = .num y → decimalOf x.toList = some p → decimalOf y.toList = some q →
      NumbersFit op x y p q
  else ∀ o, sqlOrd co a b = some o → Apart op o

/-- Of two numerals one is less, equal or greater. -/
def Ordered (x y : String) (p q : ℚ) : Prop :=
  if (intOf x).isSome = (intOf y).isSome then (intOf x).isSome → nearestDouble p = nearestDouble q → p = q
  else nearestDouble p ≠ nearestDouble q

/-- The verdict of an operator on an equality and an order. -/
def evalOp (op : LeafOp) (equal : Bool) (ord : Option Ordering) : Bool :=
  match op with
  | .eq => equal
  | .neq => !equal
  | .lt => ord.any Ordering.isLT
  | .lte => ord.any Ordering.isLE
  | .gt => ord.any Ordering.isGT
  | .gte => ord.any Ordering.isGE
  | .like => false

variable {parseF64 : String → Option OrderedFloat} {co : Coercion} {a b : Tok} {v w : Literal} {s : String}
  {op : LeafOp}

lemma evalConst_eq (h : leafOp s = some op) (v w : Json) :
    evalConst v s w = evalOp op (v.scalarEq w) (constOrd v w) := by
  unfold leafOp at h
  split at h <;> cases h <;> rfl

lemma leafOp_ne_like (h : leafOp s = some op) : op ≠ .like := by
  unfold leafOp at h
  split at h <;> cases h <;> simp

lemma evalOp_order {o : Ordering} {equal : Bool} (hop : op ∉ [LeafOp.eq,.neq,.like]) :
    evalOp op equal (some o) = op.holds o := by
  cases op <;> first | exact absurd (by decide) hop | (cases o <;> rfl)

/-- An equality and an order that say what one comparison says. -/
lemma evalOp_compare {α : Type*} [LinearOrder α] (hop : op ≠ .like) {x y : α} {equal : Bool}
    (h : equal = true ↔ x = y) : evalOp op equal (some (compare x y)) = op.holds (compare x y) := by
  have hequal : equal = (compare x y == .eq) := by
    rw [Bool.eq_iff_iff,h,beq_iff_eq,compare_eq_iff_eq]
  cases op with
  | like => exact absurd rfl hop
  | eq => rw [evalOp,hequal,LeafOp.holds]
  | neq =>
    rw [evalOp,hequal,LeafOp.holds]
    rfl
  | _ => exact evalOp_order (by decide)

lemma isNumber_of_num {x : String} (h : literal parseF64 (.num x) = .ok v) :
    (∃ i, v.json = .int i) ∨ ∃ f, v.json = .float f :=
  (numLiteral_cases h).imp (fun ⟨i,_,hv⟩ => ⟨i,hv⟩) fun ⟨_,f,_,_,hv⟩ => ⟨f,hv⟩

lemma constOrd_number (hv : (∃ i, v.json = .int i) ∨ ∃ f, v.json = .float f)
    (hw : (∃ i, w.json = .int i) ∨ ∃ f, w.json = .float f) :
    constOrd v.json w.json = some (compare (double v.json) (double w.json)) := by
  rcases hv with ⟨_,hv⟩ | ⟨_,hv⟩ <;> rcases hw with ⟨_,hw⟩ | ⟨_,hw⟩ <;> rw [hv,hw] <;> rfl

section Numbers
variable {x y : String} {p q : ℚ}

/-- Rounding keeps an order or makes it an equality. -/
lemma double_lt_iff (hp : nearestDouble p = some (double v.json)) (hq : nearestDouble q = some (double w.json)) :
    (double v.json < double w.json ↔ p < q) ↔ (p < q → nearestDouble p ≠ nearestDouble q) := by
  have hmono := Binary64.nearest_mono (k := double v.json) (l := double w.json) (x := p) (y := q)
  have hmono' := Binary64.nearest_mono (k := double w.json) (l := double v.json) (x := q) (y := p)
  have hnp := (nearest_of_nearestDouble hp).1
  have hnq := (nearest_of_nearestDouble hq).1
  rw [hp,hq,ne_eq,Option.some.injEq]
  constructor
  · exact fun h hlt => (h.mpr hlt).ne
  · refine fun h => ⟨fun hlt => not_le.mp fun hle => ?_,fun hlt => lt_of_le_of_ne (hmono hlt.le hnp hnq) (h hlt)⟩
    exact absurd (hmono' hle hnq hnp) hlt.not_ge

/-- The equality of JSON between two numerals, by how they are written. -/
lemma scalarEq_iff (hround : CorrectlyRounded parseF64) (hv : literal parseF64 (.num x) = .ok v)
    (hw : literal parseF64 (.num y) = .ok w) (hp : decimalOf x.toList = some p) (hq : decimalOf y.toList = some q) :
    v.json.scalarEq w.json = true ↔ (intOf x).isSome = (intOf y).isSome ∧
      if (intOf x).isSome then p = q else nearestDouble p = nearestDouble q := by
  rw [nearest_of_numLiteral hround hv hp,nearest_of_numLiteral hround hw hq]
  rcases numLiteral_cases hv with ⟨i,hi,hjson⟩ | ⟨hi,f,-,-,hjson⟩ <;>
    rcases numLiteral_cases hw with ⟨j,hj,hjson'⟩ | ⟨hj,g,-,-,hjson'⟩ <;> rw [hjson,hjson',hi,hj]
  · rw [eq_of_parseI64 (parseI64_of_intOf hi) hp,eq_of_parseI64 (parseI64_of_intOf hj) hq]
    simp [Json.scalarEq]
  · simp [Json.scalarEq]
  · simp [Json.scalarEq]
  · simp [Json.scalarEq,double,Json.asF64]

/-- An operator's verdict on two numerals is that on the numbers exactly when they fit. -/
lemma evalOp_eq_holds (hround : CorrectlyRounded parseF64) (hv : literal parseF64 (.num x) = .ok v)
    (hw : literal parseF64 (.num y) = .ok w) (hp : decimalOf x.toList = some p) (hq : decimalOf y.toList = some q)
    (hop : op ≠ .like) : evalOp op (v.json.scalarEq w.json) (some (compare (double v.json) (double w.json))) =
      op.holds (compare p q) ↔ NumbersFit op x y p q := by
  have hnp := nearest_of_numLiteral hround hv hp
  have hnq := nearest_of_numLiteral hround hw hq
  have hord : ∀ op : LeafOp, (op.holds (compare (double v.json) (double w.json)) = op.holds (compare p q) ↔
      (op.Relates (double v.json) (double w.json) ↔ op.Relates p q)) := by
    intro op
    rw [Bool.eq_iff_iff,LeafOp.holds_compare,LeafOp.holds_compare]
  have hequal : ((v.json.scalarEq w.json = true ↔ p = q) ↔ NumbersFit.EqualFits x y p q) := by
    rw [scalarEq_iff hround hv hw hp hq,NumbersFit.EqualFits]
    by_cases hsame : (intOf x).isSome = (intOf y).isSome
    · rw [if_pos hsame]
      by_cases hint : (intOf x).isSome
      · rw [if_pos hint]
        exact iff_of_true ⟨fun h => h.2,fun h => ⟨hsame,h⟩⟩ (.inl hint)
      · rw [if_neg hint]
        exact ⟨fun h => .inr fun hd => h.mp ⟨hsame,hd⟩,
          fun h => ⟨fun hd => (h.resolve_left hint) hd.2,fun h => ⟨hsame,by rw [h]⟩⟩⟩
    · rw [if_neg hsame]
      exact ⟨fun h hpq => hsame (h.mpr hpq).1,fun h => ⟨fun hd => absurd hd.1 hsame,fun hpq => absurd hpq h⟩⟩
  cases op with
  | like => exact absurd rfl hop
  | eq =>
    change (_ = LeafOp.holds .eq (compare p q) ↔ _)
    rw [Bool.eq_iff_iff,LeafOp.holds_compare]
    exact hequal
  | neq =>
    change ((!v.json.scalarEq w.json) = !LeafOp.holds .eq (compare p q) ↔ _)
    rw [Bool.not_inj_iff,Bool.eq_iff_iff,LeafOp.holds_compare]
    exact hequal
  | lt =>
    rw [evalOp_order (by decide)]
    exact (hord .lt).trans (double_lt_iff hnp hnq)
  | gte =>
    rw [evalOp_order (by decide)]
    refine (hord .gte).trans (Iff.trans ?_ (double_lt_iff hnp hnq))
    rw [LeafOp.Relates,LeafOp.Relates,← not_lt,← not_lt,not_iff_not]
  | gt =>
    rw [evalOp_order (by decide)]
    refine (hord .gt).trans (Iff.trans (double_lt_iff hnq hnp) ?_)
    rw [NumbersFit,ne_comm]
  | lte =>
    rw [evalOp_order (by decide)]
    refine (hord .lte).trans (Iff.trans ?_ ((double_lt_iff hnq hnp).trans ?_))
    · rw [LeafOp.Relates,LeafOp.Relates,← not_lt,← not_lt,not_iff_not]
    · rw [NumbersFit,ne_comm]

end Numbers

/-- What a literal is, by the family of its token. -/
lemma literal_cases (h : literal parseF64 a = .ok v) :
    (∃ x, a = .str x ∧ v.json = .string x) ∨
      (∃ x, a = .num x ∧ ((∃ i, v.json = .int i) ∨ ∃ f, v.json = .float f)) ∨
      ∃ c, (a = if c then .true else .false) ∧ v.json = .bool c := by
  cases a <;> first
  | (cases h; exact .inl ⟨_,rfl,rfl⟩)
  | exact .inr (.inl ⟨_,rfl,isNumber_of_num h⟩)
  | (cases h; exact .inr (.inr ⟨true,rfl,rfl⟩))
  | (cases h; exact .inr (.inr ⟨false,rfl,rfl⟩))
  | cases h

/-- Constants of two families are different and have no order. -/
lemma evalOp_mixed (op : LeafOp) : evalOp op false none = decide (op = .neq) := by
  cases op <;> rfl

lemma verdict_mixed (ha : literal parseF64 a = .ok v) (hb : literal parseF64 b = .ok w) (h : kind a ≠ kind b) :
    v.json.scalarEq w.json = false ∧ constOrd v.json w.json = none := by
  rcases literal_cases ha with ⟨x,rfl,hv⟩ | ⟨x,rfl,⟨i,hv⟩ | ⟨f,hv⟩⟩ | ⟨c,rfl,hv⟩ <;>
    rcases literal_cases hb with ⟨y,rfl,hw⟩ | ⟨y,rfl,⟨j,hw⟩ | ⟨g,hw⟩⟩ | ⟨d,rfl,hw⟩ <;> rw [hv,hw] <;> first
  | exact ⟨rfl,rfl⟩
  | exact absurd rfl h
  | (cases c <;> cases d <;> exact absurd rfl h)

/-- A comparison of constants has SQL's result, if SQL has one, exactly when the constants are fine. -/
theorem verdict_iff (hround : CorrectlyRounded parseF64) (ha : literal parseF64 a = .ok v)
    (hb : literal parseF64 b = .ok w) (hop : leafOp s = some op) :
    (∀ t, sqlConst co a s b = some t → verdict parseF64 a s b = t) ↔ Fine co a op b := by
  have hne := leafOp_ne_like hop
  have hverdict : verdict parseF64 a s b = evalOp op (v.json.scalarEq w.json) (constOrd v.json w.json) := by
    rw [verdict,ha,hb]
    exact evalConst_eq hop _ _
  have hsql : sqlConst co a s b = (sqlOrd co a b).map op.holds := by
    rw [sqlConst,hop]
    cases sqlOrd co a b <;> rfl
  rw [hverdict,hsql]
  by_cases hkind : kind a = kind b
  · rw [Fine,if_pos hkind]
    rcases literal_cases ha with ⟨x,rfl,hv⟩ | ⟨x,rfl,hv⟩ | ⟨c,rfl,hv⟩
    · rcases literal_cases hb with ⟨y,rfl,hw⟩ | ⟨y,rfl,_⟩ | ⟨d,rfl,_⟩
      · refine iff_of_true ?_ fun _ _ _ _ h => by cases h
        rintro t ⟨⟩
        rw [hv,hw]
        exact evalOp_compare hne (by simp [Json.scalarEq])
      · cases hkind
      · cases d <;> cases hkind
    · rcases literal_cases hb with ⟨y,rfl,_⟩ | ⟨y,rfl,hw⟩ | ⟨d,rfl,_⟩
      · cases hkind
      · rw [constOrd_number hv hw]
        constructor
        · rintro h x' y' p q ⟨⟩ ⟨⟩ hp hq
          refine (evalOp_eq_holds hround ha hb hp hq hne).mp (h _ ?_)
          simp only [sqlOrd,hp,hq]
          rfl
        · intro h t ht
          cases hp : decimalOf x.toList with
          | none => simp [sqlOrd,hp] at ht
          | some p =>
            cases hq : decimalOf y.toList with
            | none => simp [sqlOrd,hp,hq] at ht
            | some q =>
              obtain rfl : op.holds (compare p q) = t := by simpa [sqlOrd,hp,hq] using ht
              exact (evalOp_eq_holds hround ha hb hp hq hne).mpr (h x y p q rfl rfl hp hq)
      · cases d <;> cases hkind
    · rcases literal_cases hb with ⟨y,rfl,_⟩ | ⟨y,rfl,_⟩ | ⟨d,rfl,hw⟩
      · cases c <;> cases hkind
      · cases c <;> cases hkind
      · refine iff_of_true ?_ fun _ _ _ _ h => by cases c <;> cases h
        intro t ht
        have hord : sqlOrd co (if c then .true else .false) (if d then .true else .false) = some (compare c d) := by
          cases c <;> cases d <;> rfl
        rw [hord] at ht
        obtain rfl := Option.some.inj ht
        rw [hv,hw]
        exact evalOp_compare hne (by simp [Json.scalarEq])
  · obtain ⟨hequal,hord⟩ := verdict_mixed ha hb hkind
    have hapart : ∀ o, decide (op = .neq) = op.holds o ↔ Apart op o := by
      intro o
      cases op with
      | like => exact absurd rfl hne
      | _ => cases o <;> simp [LeafOp.holds,Apart]
    rw [Fine,if_neg hkind,hequal,hord,evalOp_mixed op]
    constructor
    · exact fun h o ho => (hapart o).mp (h _ (by rw [ho]; rfl))
    · intro h t ht
      obtain ⟨o,ho,rfl⟩ := Option.map_eq_some_iff.mp ht
      exact (hapart o).mpr (h o ho)

variable (parseF64 co)

/-- The parser takes the tokens as SQL does: every clause of the grammar, with SQL's value on every row of a table,
each comparison of constants in it with its own value, and nothing else. -/
structure ReadsAsSql (schema : Option TableSchema) (db : Database) (ts : TableSchema) (toks : List Tok) : Prop where
  accepted : ∀ c, Derives .disjunction toks c [] → c.Documented schema →
    ∃ p, parseTokens parseF64 schema toks = .ok p ∧
      ∀ f, c.sql co db ts = some f → db.Compiles parseF64 p ts ∧
        ∀ row, ts.Typed row → db.truth parseF64 p ts row = f row
  constants : ∀ c, Derives .disjunction toks c [] → c.Documented schema → ∀ k ∈ c.consts,
    ∀ t, sqlConst co k.1 k.2.1 k.2.2 = some t →
      ∃ p, parseTokens parseF64 schema [k.1,.op k.2.1,k.2.2] = .ok p ∧
        ∀ row, db.truth parseF64 p ts row = Truth.ofBool t
  rejected : (∀ c, Derives .disjunction toks c [] → ¬c.Documented schema) →
    ∀ p, parseTokens parseF64 schema toks ≠ .ok p

variable {parseF64 co} {schema : Option TableSchema}

lemma Derives.parseTokens {toks : List Tok} {c : Clause} (h : Derives .disjunction toks c [])
    (haccepted : c.Accepted parseF64 schema) :
    ∃ p, parseTokens parseF64 schema toks = .ok p ∧ Reads parseF64 c p := by
  obtain ⟨p,ps,ms,hp,hps,hreads⟩ := h.parsed haccepted (by simp [Stops]) (8*toks.length+7)
    (by simp only [rank]; omega)
  refine ⟨joined .or p ps,?_,hreads⟩
  rw [WhereSql.parseTokens,parseOr,hp]
  simp only [hps,bind,Except.bind,pure,Except.pure,if_true]

lemma derivable_of_parseTokens {toks : List Tok} {p : PredicateJson} (h : parseTokens parseF64 schema toks = .ok p) :
    Derivable parseF64 schema .disjunction toks [] := by
  rw [parseTokens,bind_eq_ok] at h
  obtain ⟨⟨q,rest⟩,hq,h⟩ := h
  dsimp only at h
  split at h
  · next hrest =>
    rw [hrest] at hq
    exact (sound _).or_ hq
  · cases h

lemma parseTokens_const (ha : literal parseF64 a = .ok v) (hb : literal parseF64 b = .ok w) :
    parseTokens parseF64 schema [a,.op s,b] = .ok (if verdict parseF64 a s b then .and [] else .or []) := by
  have hverdict : verdict parseF64 a s b = evalConst v.json s w.json := by rw [verdict,ha,hb]
  have hnot : [a,.op s,b].head? ≠ some .not := by
    rintro ⟨⟩
    cases ha
  have hparen : [a,.op s,b].head? ≠ some .lparen := by
    rintro ⟨⟩
    cases ha
  have hprimary : parsePrimary parseF64 schema 29 [a,.op s,b] =
      .ok (if verdict parseF64 a s b then .and [] else .or [],[]) := by
    rw [parsePrimary_of_ne hparen,parsePredicate,if_pos (literal_isConstant ha _),parseConst,parseLiteral,ha,hverdict]
    simp only [parseLiteral,hb,bind,Except.bind,pure,Except.pure]
  rw [parseTokens]
  change (parseOr parseF64 schema 32 _ >>= _) = _
  rw [parseOr,parseAnd,parseNot_of_ne hnot,hprimary]
  rfl

namespace Clause

lemma Accepted.readable {c : Clause} (h : c.Accepted parseF64 schema) :
    ∀ k ∈ c.consts, Readable parseF64 k.1 ∧ Readable parseF64 k.2.2 := by
  induction c with
  | const =>
    intro k hk
    obtain rfl := List.mem_singleton.mp hk
    exact h
  | inSelectWhere _ _ _ _ _ ih => exact ih h.2
  | not _ ih => exact ih h
  | and _ _ ih ih' => exact fun k hk => (List.mem_append.mp hk).elim (ih h.1 k) (ih' h.2 k)
  | or _ _ ih ih' => exact fun k hk => (List.mem_append.mp hk).elim (ih h.1 k) (ih' h.2 k)
  | _ => exact fun k hk => absurd hk List.not_mem_nil

lemma Documented.named {c : Clause} : ∀ {schema : Option TableSchema}, c.Documented schema → c.Named := by
  induction c with
  | inSelect => exact fun h => h
  | inSelectWhere _ _ _ _ _ ih => exact fun h => ⟨h.1,ih h.2⟩
  | not _ ih => exact fun h => ih h
  | and _ _ ih ih' => exact fun h => ⟨ih h.1,ih' h.2⟩
  | or _ _ ih ih' => exact fun h => ⟨ih h.1,ih' h.2⟩
  | _ => exact fun _ => trivial

lemma Documented.operator {c : Clause} : ∀ {schema : Option TableSchema}, c.Documented schema →
    ∀ k ∈ c.consts, (leafOp k.2.1).isSome := by
  induction c with
  | const =>
    intro schema h k hk
    obtain rfl := List.mem_singleton.mp hk
    exact h.2.1
  | inSelectWhere _ _ _ _ _ ih => exact fun h => ih h.2
  | not _ ih => exact fun h => ih h
  | and _ _ ih ih' => exact fun h k hk => (List.mem_append.mp hk).elim (ih h.1 k) (ih' h.2 k)
  | or _ _ ih ih' => exact fun h k hk => (List.mem_append.mp hk).elim (ih h.1 k) (ih' h.2 k)
  | _ => exact fun _ k hk => absurd hk List.not_mem_nil

end Clause

variable (parseF64 co schema)

/-- The clauses that are read right: what the parser lets through is documented and the other way around, constants
are fine, and where SQL takes the clause its constants suit their columns. -/
def ReadsRight (db : Database) (ts : TableSchema) (toks : List Tok) : Prop :=
  ∀ c, Derives .disjunction toks c [] →
    (c.Accepted parseF64 schema ↔ c.Documented schema) ∧
    (c.Documented schema → (∀ k ∈ c.consts, ∀ op, leafOp k.2.1 = some op → Fine co k.1 op k.2.2) ∧
      ((c.sql co db ts).isSome → c.Suits parseF64 db ts))

variable {parseF64 co schema}

lemma readsAsSql_iff (hround : CorrectlyRounded parseF64) (hco : co.Standard parseF64) {db : Database}
    (hdb : db.Typed) {ts : TableSchema} {toks : List Tok}
    (hmixed : ∀ c, Derives .disjunction toks c [] → c.Unmixed db ts) :
    ReadsAsSql parseF64 co schema db ts toks ↔ ReadsRight parseF64 co schema db ts toks := by
  have hstops : Stops .disjunction [] := by simp [Stops]
  constructor
  · intro h c hc
    have haccepted : c.Documented schema → c.Accepted parseF64 schema := by
      intro hdoc
      obtain ⟨p,hp,-⟩ := h.accepted c hc hdoc
      obtain ⟨d,hd,hacc⟩ := derivable_of_parseTokens hp
      obtain ⟨rfl,-⟩ := hc.unique hd hstops hstops
      exact hacc
    refine ⟨⟨fun hacc => ?_,haccepted⟩,fun hdoc => ⟨fun k hk op hop => ?_,fun hsql => ?_⟩⟩
    · by_contra hdoc
      obtain ⟨p,hp,-⟩ := hc.parseTokens hacc
      refine h.rejected (fun d hd => ?_) p hp
      obtain ⟨rfl,-⟩ := hc.unique hd hstops hstops
      exact hdoc
    · obtain ⟨⟨v,hv⟩,w,hw⟩ := (haccepted hdoc).readable k hk
      refine (verdict_iff hround hv hw hop).mp fun t ht => ?_
      obtain ⟨p,hp,htruth⟩ := h.constants c hc hdoc k hk t ht
      rw [parseTokens_const hv hw] at hp
      have hvalue := htruth ⟨[]⟩
      rw [← Except.ok.inj hp] at hvalue
      cases hverdict : verdict parseF64 k.1 k.2.1 k.2.2 <;> cases t <;>
        simp [hverdict,Database.truth,Database.truthAll,Truth.ofBool] at hvalue ⊢
    · obtain ⟨f,hf⟩ := Option.isSome_iff_exists.mp hsql
      obtain ⟨p,hp,hvalue⟩ := h.accepted c hc hdoc
      obtain ⟨q,hq,hreads⟩ := hc.parseTokens (haccepted hdoc)
      obtain rfl := Except.ok.inj (hp.symm.trans hq)
      exact (hreads hround co db hco hdb hdoc.named ts f hf).1.mp (hvalue f hf).1
  · intro h
    refine ⟨fun c hc hdoc => ?_,fun c hc hdoc k hk t ht => ?_,fun hnone p hp => ?_⟩
    · obtain ⟨p,hp,hreads⟩ := hc.parseTokens ((h c hc).1.mpr hdoc)
      refine ⟨p,hp,fun f hf => ?_⟩
      have hsuits := ((h c hc).2 hdoc).2 (by rw [hf]; rfl)
      obtain ⟨hcompiles,htruth⟩ := hreads hround co db hco hdb hdoc.named ts f hf
      refine ⟨hcompiles.mpr hsuits,htruth (fun k hk => ?_) (hmixed c hc) hsuits⟩
      obtain ⟨⟨v,hv⟩,w,hw⟩ := ((h c hc).1.mpr hdoc).readable k hk
      obtain ⟨op,hop⟩ := Option.isSome_iff_exists.mp (hdoc.operator k hk)
      exact (verdict_iff hround hv hw hop).mpr (((h c hc).2 hdoc).1 k hk op hop)
    · obtain ⟨⟨v,hv⟩,w,hw⟩ := ((h c hc).1.mpr hdoc).readable k hk
      obtain ⟨op,hop⟩ := Option.isSome_iff_exists.mp (hdoc.operator k hk)
      refine ⟨_,parseTokens_const hv hw,fun row => ?_⟩
      rw [(verdict_iff hround hv hw hop).mpr (((h c hc).2 hdoc).1 k hk op hop) t ht]
      cases t <;> rfl
    · obtain ⟨c,hc,hacc⟩ := derivable_of_parseTokens hp
      exact hnone c hc ((h c hc).1.mp hacc)

/-- One of the three comparisons of two numerals holds, exactly when they are ordered. -/
lemma trichotomy_iff (hround : CorrectlyRounded parseF64) {x y : String} {p q : ℚ}
    (hv : literal parseF64 (.num x) = .ok v) (hw : literal parseF64 (.num y) = .ok w)
    (hp : decimalOf x.toList = some p) (hq : decimalOf y.toList = some q) :
    (["<","=",">"].filter fun op => verdict parseF64 (.num x) op (.num y)).length = 1 ↔ Ordered x y p q := by
  have hord := constOrd_number (isNumber_of_num hv) (isNumber_of_num hw)
  have hverdict : ∀ op, verdict parseF64 (.num x) op (.num y) = evalConst v.json op w.json := by
    intro op
    rw [verdict,hv,hw]
  have hlt : verdict parseF64 (.num x) "<" (.num y) = (compare (double v.json) (double w.json)).isLT := by
    rw [hverdict,evalConst_eq (rfl : leafOp "<" = some .lt),hord]
    rfl
  have heq : verdict parseF64 (.num x) "=" (.num y) = v.json.scalarEq w.json := by
    rw [hverdict,evalConst_eq (rfl : leafOp "=" = some .eq),hord]
    rfl
  have hgt : verdict parseF64 (.num x) ">" (.num y) = (compare (double v.json) (double w.json)).isGT := by
    rw [hverdict,evalConst_eq (rfl : leafOp ">" = some .gt),hord]
    rfl
  have hone : (["<","=",">"].filter fun op => verdict parseF64 (.num x) op (.num y)).length = 1 ↔
      (v.json.scalarEq w.json = true ↔ double v.json = double w.json) := by
    simp only [List.filter_cons,List.filter_nil,hlt,heq,hgt]
    rcases lt_trichotomy (double v.json) (double w.json) with h | h | h
    · rw [compare_lt_iff_lt.mpr h]
      cases v.json.scalarEq w.json <;> simp [h.ne]
    · rw [compare_eq_iff_eq.mpr h]
      cases v.json.scalarEq w.json <;> simp [h]
    · rw [compare_gt_iff_gt.mpr h]
      cases v.json.scalarEq w.json <;> simp [h.ne']
  have hdouble : double v.json = double w.json ↔ nearestDouble p = nearestDouble q := by
    rw [nearest_of_numLiteral hround hv hp,nearest_of_numLiteral hround hw hq,Option.some.injEq]
  rw [hone,scalarEq_iff hround hv hw hp hq,hdouble,Ordered]
  by_cases hsame : (intOf x).isSome = (intOf y).isSome
  · rw [if_pos hsame]
    by_cases hint : (intOf x).isSome
    · rw [if_pos hint]
      exact ⟨fun h _ hd => (h.mpr hd).2,fun h => ⟨fun hpq => by rw [hpq.2],fun hd => ⟨hsame,h hint hd⟩⟩⟩
    · rw [if_neg hint]
      exact iff_of_true ⟨fun h => h.2,fun h => ⟨hsame,h⟩⟩ fun h => absurd h hint
  · rw [if_neg hsame]
    exact ⟨fun h hd => hsame (h.mpr hd).1,fun h => ⟨fun hd => absurd hd.1 hsame,fun hd => absurd hd h⟩⟩

/-- The parser reads a sequence of tokens as SQL does, where no subquery mixes integers with doubles, exactly when it
lets the documented clauses through, and no others, their constants are fine and suit their columns; two numerals
compare in one way exactly when they are ordered; and every sequence of tokens is that of a text. -/
theorem parser_keeps_sql (parseF64 : String → Option OrderedFloat) (co : Coercion) (cls : CharClass)
    (schema : Option TableSchema) (hround : CorrectlyRounded parseF64) (hco : co.Standard parseF64) :
    (∀ db ts toks, db.Typed → (∀ c, Derives .disjunction toks c [] → c.Unmixed db ts) →
      (ReadsAsSql parseF64 co schema db ts toks ↔ ReadsRight parseF64 co schema db ts toks)) ∧
    (∀ x y v w p q, literal parseF64 (.num x) = .ok v → literal parseF64 (.num y) = .ok w →
      decimalOf x.toList = some p → decimalOf y.toList = some q →
        ((["<","=",">"].filter fun op => verdict parseF64 (.num x) op (.num y)).length = 1 ↔ Ordered x y p q)) ∧
    ∀ toks, (∀ t ∈ toks, Lexeme t) → tokenize cls (render toks) = .ok toks :=
  ⟨fun _ _ _ hdb hmixed => readsAsSql_iff hround hco hdb hmixed,
    fun _ _ _ _ _ _ hv hw hp hq => trichotomy_iff hround hv hw hp hq,fun _ h => tokenize_render h⟩

/-- A reader of one numeral. -/
def sampleParse : String → Option OrderedFloat := fun n => if n = "1.5" then some ⟨0x3FF8000000000000⟩ else none

lemma nearest_sample : nearestDouble (3/2) = some 0x3FF8000000000000 := nearestDouble_eq (by decide +kernel) (by decide)

lemma correctlyRounded_sample : CorrectlyRounded sampleParse := by
  intro n q f hq hf
  unfold sampleParse at hf
  split at hf
  · next hn =>
    subst hn
    cases hf
    have hdecimal : decimalOf "1.5".toList = some (3/2) := by decide +kernel
    rw [hdecimal] at hq
    cases hq
    exact nearest_sample
  · cases hf

/-- A database that reads one string beside an integer. -/
def sampleCoercion : Coercion where
  number _ _ := none
  bool _ := none
  cell ty s := if ty = .int ∧ s = "5" then some (.int 5) else none

lemma standard_sample : sampleCoercion.Standard sampleParse where
  int s i v hi hv := by
    simp only [sampleCoercion,true_and] at hv
    split at hv
    · next hs =>
      subst hs
      cases hv
      have hfive : parseI64 "5".toList = some 5 := by decide +kernel
      rw [hfive] at hi
      cases hi
      rfl
    · cases hv
  float s f v _ hv := by simp [sampleCoercion] at hv
  yes s v _ hv := by simp [sampleCoercion] at hv
  no s v _ hv := by simp [sampleCoercion] at hv

/-- A database with one table of one row. -/
def sampleTables : Database where
  schema table := if table = "public.labels" then some .sample else none
  rows _ := [⟨[.int 5,.null]⟩]

/-- `level NOT IN (SELECT id FROM labels) AND NOT level <= '5' AND 1.5 < 2`. -/
def mixedTokens : List Tok :=
  [.ident "level",.not,.in_,.lparen,.select,.ident "id",.from_,.ident "labels",.rparen,.and,
    .not,.ident "level",.op "<=",.str "5",.and,.num "1.5",.op "<",.num "2"]

def mixedClause : Clause :=
  .and (.inSelect "level" true "labels" "id")
    (.and (.not (.compare "level" false .lte (.str "5"))) (.const (.num "1.5") "<" (.num "2")))

lemma derives_mixed : Derives .disjunction mixedTokens mixedClause [] :=
  .orOne (.andMore (.notOne (@Derives.inSelect "level" "id" "labels" true _))
    (.andMore (.notMore (.notOne (@Derives.compare "level" "<=" false .lte (.str "5") _ rfl rfl)))
      (.andOne (.notOne (.const rfl rfl)))))

lemma typed_sampleTables : sampleTables.Typed := by
  intro table ts hts row hrow
  simp only [sampleTables] at hts
  split at hts
  · cases hts
    obtain rfl : row = ⟨[.int 5,.null]⟩ := by simpa [sampleTables] using hrow
    intro i
    rcases i with _ | _ | i
    · exact .inr trivial
    · exact .inl rfl
    · exact .inl rfl
  · cases hts

/-- A clause with a subquery, a string and constants is read as SQL reads it. -/
theorem sample_readsAsSql :
    ReadsAsSql sampleParse sampleCoercion none sampleTables .sample mixedTokens ∧
      (mixedClause.sql sampleCoercion sampleTables .sample).isSome ∧
      (["<","=",">"].filter fun op => verdict sampleParse (.num "1.5") op (.num "2")).length = 1 := by
  have hkeeps := parser_keeps_sql sampleParse sampleCoercion ⟨Char.isAlpha,Char.isDigit,by decide,fun _ h => h⟩ none
    correctlyRounded_sample standard_sample
  have hstops : Stops .disjunction [] := by simp [Stops]
  have hreadable : Readable sampleParse (.num "1.5") ∧ Readable sampleParse (.num "2") := by
    constructor
    · exact ⟨⟨.float ⟨0x3FF8000000000000⟩,by decide⟩,by rfl⟩
    · exact ⟨⟨.int 2,rfl⟩,by rfl⟩
  have htwo : nearestDouble 2 = some 0x4000000000000000 := nearestDouble_eq (by decide +kernel) (by decide)
  have hx : decimalOf "1.5".toList = some (3/2) := by decide +kernel
  have hy : decimalOf "2".toList = some 2 := by decide +kernel
  have hdiffer : nearestDouble (3/2) ≠ nearestDouble 2 := by rw [nearest_sample,htwo]; decide
  refine ⟨(hkeeps.1 sampleTables .sample mixedTokens typed_sampleTables ?_).mpr ?_,?_,?_⟩
  · intro c hc
    obtain ⟨rfl,-⟩ := derives_mixed.unique hc hstops hstops
    refine ⟨fun idx inner p hidx hinner hp => ?_,trivial,trivial⟩
    cases hidx
    cases hinner
    cases hp
    decide
  · intro c hc
    obtain ⟨rfl,-⟩ := derives_mixed.unique hc hstops hstops
    refine ⟨iff_of_true ⟨⟨_,rfl⟩,⟨⟨.string "5",rfl⟩,rfl⟩,hreadable⟩ ⟨rfl,?_,?_,rfl,?_⟩,
      fun _ => ⟨?_,fun _ => ⟨trivial,?_,trivial⟩⟩⟩
    · intro n hn
      cases hn
    · intro n hn
      cases hn
      rw [hx]
      rfl
    · intro n hn
      cases hn
      rw [hy]
      rfl
    · intro k hk op hop
      obtain rfl : k = (.num "1.5","<",.num "2") := by simpa [mixedClause,Clause.consts] using hk
      cases hop
      change Fine sampleCoercion (.num "1.5") .lt (.num "2")
      unfold Fine
      rw [if_pos (by rfl)]
      rintro x y p q ⟨⟩ ⟨⟩ hp hq
      rw [hx] at hp
      rw [hy] at hq
      cases hp
      cases hq
      exact fun _ => hdiffer
    · intro idx hidx
      cases hidx
      rfl
  · rfl
  · refine (hkeeps.2.1 "1.5" "2" _ _ _ _ hreadable.1.choose_spec hreadable.2.choose_spec hx hy).mpr ?_
    rw [Ordered,if_neg (by decide)]
    exact hdiffer

/-- Two neighbours of one double. -/
def bigGreater : List Tok := [.num "9007199254740993",.op ">",.num "9007199254740992"]

/-- A subquery on a column that the outer table does not have. -/
def innerNull : List Tok :=
  [.ident "id",.in_,.lparen,.select,.ident "id",.from_,.ident "labels",.where_,.ident "gone",.is,.null,.rparen]

/-- An integer column beside a numeral with a fraction. -/
def halfLevel : List Tok := [.ident "level",.op "<",.num "1.5"]

/-- An integer is greater than its neighbour and none of the three comparisons says so; the null test of an inner
table is refused for a column that only the outer table lacks; and what an integer is less than is not compiled. -/
theorem sample_not_readsAsSql :
    ¬ReadsAsSql sampleParse sampleCoercion none sampleTables .sample bigGreater ∧
    (["<","=",">"].filter fun op =>
      verdict sampleParse (.num "9007199254740993") op (.num "9007199254740992")) = [] ∧
    ¬ReadsAsSql sampleParse sampleCoercion (some .sample) sampleTables .sample innerNull ∧
    ¬ReadsAsSql sampleParse sampleCoercion none sampleTables .sample halfLevel := by
  have hv : literal sampleParse (.num "9007199254740993") = .ok ⟨.int 9007199254740993,rfl⟩ := by rfl
  have hw : literal sampleParse (.num "9007199254740992") = .ok ⟨.int 9007199254740992,rfl⟩ := by rfl
  refine ⟨fun h => ?_,by decide +kernel,fun h => ?_,fun h => ?_⟩
  · have hsql : sqlConst sampleCoercion (.num "9007199254740993") ">" (.num "9007199254740992") = some true := by
      decide +kernel
    have hverdict : verdict sampleParse (.num "9007199254740993") ">" (.num "9007199254740992") = false := by
      decide +kernel
    have hspelled : ∀ n ∈ ["9007199254740993","9007199254740992"], (decimalOf n.toList).isSome := by decide +kernel
    obtain ⟨p,hp,htruth⟩ := h.constants _ (.orOne (.andOne (.notOne (.const rfl rfl))))
      ⟨fun n hn => (by cases hn; exact hspelled _ (.head _)),rfl,
        fun n hn => (by cases hn; exact hspelled _ (.tail _ (.head _)))⟩ _ (.head _) _ hsql
    rw [parseTokens_const hv hw,hverdict] at hp
    have hvalue := htruth ⟨[]⟩
    rw [← Except.ok.inj hp] at hvalue
    simp [Database.truth,Database.truthAll,Truth.ofBool] at hvalue
  · have hderives : Derives .disjunction innerNull
        (.inSelectWhere "id" false "labels" "id" (.isNull "gone" false)) [] :=
      .orOne (.andOne (.notOne (@Derives.inSelectWhere "id" "id" "labels" false _ [] _
        (.orOne (.andOne (.notOne (@Derives.isNull "gone" false [.rparen])))))))
    obtain ⟨p,hp,-⟩ := h.accepted _ hderives ⟨by rfl,rfl⟩
    have herror : parseTokens sampleParse (some .sample) innerNull =
        .error (.unknownColumn "unknown column 'gone'") := by rfl
    rw [herror] at hp
    cases hp
  · have hderives : Derives .disjunction halfLevel (.compare "level" false .lt (.num "1.5")) [] :=
      .orOne (.andOne (.notOne (@Derives.compare "level" "<" false .lt (.num "1.5") _ rfl rfl)))
    have hhalf : decimalOf "1.5".toList = some (3/2) := by decide +kernel
    obtain ⟨p,hp,hvalue⟩ := h.accepted _ hderives fun n hn => (by cases hn; rw [hhalf]; rfl)
    have hparse : parseTokens sampleParse none halfLevel =
        .ok (.leaf "level" .lt ⟨.float ⟨0x3FF8000000000000⟩,by decide⟩) := by rfl
    rw [hparse] at hp
    cases hp
    have hsql : ((Clause.compare "level" false .lt (.num "1.5")).sql sampleCoercion sampleTables .sample).isSome := by
      rfl
    obtain ⟨f,hf⟩ := Option.isSome_iff_exists.mp hsql
    obtain ⟨idx,hidx,c,hc⟩ := (hvalue f hf).1
    cases hidx
    cases hc

end WhereSql
end ElectricCircuits
