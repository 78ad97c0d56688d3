import ElectricCircuits.SqlSemantics

/-! The `IN (SELECT …)` leaves of a predicate and the rows read back when a node's set changes: a value
asks for the rows whose connecting column holds it, and NULL for every row, where an edge is sensitive to
it. Where the column's own equality finds the cells that the engine counts as equal, every row that such a
change moves in or out is read back. -/
namespace ElectricCircuits
open ThreeValued

/-- One `IN (SELECT …)` leaf, with the context that its dependency edge needs. -/
structure InLeaf where
  col : ℕ
  sig : SubquerySig
  negated : Bool
  /-- The leaf is negated or stands under some `Not`. -/
  nullSensitive : Bool
  deriving DecidableEq

namespace CompiledPredicate

mutual

def inLeaves (underNot : Bool) : CompiledPredicate → List InLeaf
  | .and ps => inLeavesList underNot ps
  | .or ps => inLeavesList underNot ps
  | .not p => inLeaves true p
  | .inSubquery col sig negated => [⟨col,sig,negated,negated || underNot⟩]
  | .matchAll => []
  | .cmp _ _ _ => []
  | .isNull _ _ => []

def inLeavesList (underNot : Bool) : List CompiledPredicate → List InLeaf
  | [] => []
  | p :: ps => inLeaves underNot p ++ inLeavesList underNot ps

end

/-- All `IN (SELECT …)` leaves, each with whether it stands under a `Not`. -/
def collectInLeaves (p : CompiledPredicate) : List InLeaf := p.inLeaves false

lemma mem_inLeavesList {un : Bool} {ps : List CompiledPredicate} {l : InLeaf} :
    l ∈ inLeavesList un ps ↔ ∃ p ∈ ps, l ∈ p.inLeaves un := by
  induction ps with
  | nil => simp [inLeavesList]
  | cons p ps ih => simp [inLeavesList,ih]

end CompiledPredicate

/-- The values that each node's set holds, NULL among them or not. -/
abbrev NodeSets := SubquerySig → Value → Bool

/-- The registry's answers to an evaluation: NULL is a value of the set like any other. -/
def NodeSets.eval (sets : NodeSets) : SubqueryEval where
  contains := sets
  hasNull sig := sets sig .null

/-- The rows that a walk reads back for one edge. -/
inductive Requery where
  | all
  | byCol (col : ℕ) (value : Value)
  deriving DecidableEq

/-- Postgres' answer to `"col" = value`, as `value_eq_sql` writes it, on a row. -/
abbrev ColumnEquality := ℕ → Value → Row → Bool

/-- The column's equality holds of each cell that the engine counts as equal to the value, as that of an integer, a
boolean or a text does. A `real` or `numeric` cell need not equal the double that it became, and a NaN is not
written. -/
def ColumnEquality.Finds (equals : ColumnEquality) (col : ℕ) : Prop :=
  ∀ value row, row.cell col ≠ .null → (row.cell col).eqv value = true → equals col value row = true

/-- The equality that the engine means: NULL equals nothing. -/
def ColumnEquality.meant : ColumnEquality :=
  fun col value row => decide (row.cell col ≠ .null) && (row.cell col).eqv value

lemma ColumnEquality.finds_meant (col : ℕ) : ColumnEquality.meant.Finds col :=
  fun value row hnull heq => by simp [meant,hnull,heq]

/-- The rows that a read is for. -/
def Requery.selects (equals : ColumnEquality) : Requery → Row → Bool
  | all, _ => true
  | byCol col value, row => equals col value row

/-- What the walk reads back over an edge when a value enters or leaves its node's set. A NULL matters
to a sensitive edge alone, and may then move every row. -/
def InLeaf.requery (l : InLeaf) (value : Value) : Option Requery :=
  if value = .null then if l.nullSensitive then some .all else none else some (.byCol l.col value)

/-- The column of each edge finds what the engine counts as equal. -/
def CompiledPredicate.Finds (p : CompiledPredicate) (equals : ColumnEquality) : Prop :=
  ∀ l ∈ p.collectInLeaves, equals.Finds l.col

/-- A flip of the node `sig` at `value` has the row read back over some edge of the predicate. -/
def CompiledPredicate.readsBack (p : CompiledPredicate) (equals : ColumnEquality) (row : Row) (sig : SubquerySig)
    (value : Value) : Bool :=
  p.collectInLeaves.any fun l => decide (l.sig = sig) && (l.requery value).any (·.selects equals row)

/-- The set of `sig` differs between two states of the nodes at a value like `v`. -/
def NodeSets.Flipped (sets sets' : NodeSets) (sig : SubquerySig) (v : Value) : Prop := sets sig v ≠ sets' sig v

namespace CompiledPredicate
variable {equals : ColumnEquality}

lemma readsBack_of_leaf {p : CompiledPredicate} {row : Row} {l : InLeaf} {v : Value} {q : Requery}
    (hl : l ∈ p.collectInLeaves) (hq : l.requery v = some q) (hrow : q.selects equals row = true) :
    p.readsBack equals row l.sig v = true := by
  apply List.any_eq_true.mpr
  exact ⟨l,hl,by simp [hq,hrow]⟩

/-- A leaf about whose own values nothing new is answered has the value it had. -/
lemma evalCtx_inSubquery_congr {row : Row} {ev ev' : SubqueryEval} {col : ℕ} {sig : SubquerySig} {negated : Bool}
    (hcell : row.cell col ≠ .null → ev.contains sig (row.cell col) = ev'.contains sig (row.cell col))
    (hnull : negated = true → ev.hasNull sig = ev'.hasNull sig) :
    (inSubquery col sig negated).evalCtx row ev = (inSubquery col sig negated).evalCtx row ev' := by
  by_cases hc : row.cell col = .null
  · simp [evalCtx,hc]
  · simp only [evalCtx]
    rw [hcell hc]
    cases negated with
    | false => rfl
    | true => rw [hnull rfl]

lemma evalAnd_congr {row : Row} {ev ev' : SubqueryEval} {ps : List CompiledPredicate}
    (h : ∀ p ∈ ps, p.evalCtx row ev = p.evalCtx row ev') (acc : Tri) :
    evalAnd row ev acc ps = evalAnd row ev' acc ps := by
  induction ps generalizing acc with
  | nil => rfl
  | cons p ps ih =>
    have ih := ih fun q hq => h q (List.mem_cons_of_mem _ hq)
    simp only [evalAnd,h p List.mem_cons_self,ih]

lemma evalOr_congr {row : Row} {ev ev' : SubqueryEval} {ps : List CompiledPredicate}
    (h : ∀ p ∈ ps, p.evalCtx row ev = p.evalCtx row ev') (acc : Tri) :
    evalOr row ev acc ps = evalOr row ev' acc ps := by
  induction ps generalizing acc with
  | nil => rfl
  | cons p ps ih =>
    have ih := ih fun q hq => h q (List.mem_cons_of_mem _ hq)
    simp only [evalOr,h p List.mem_cons_self,ih]

/-- The leaf, on the row, means the same in both states of the nodes. -/
def Still (row : Row) (sets sets' : NodeSets) (l : InLeaf) : Prop :=
  (row.cell l.col ≠ .null → sets l.sig (row.cell l.col) = sets' l.sig (row.cell l.col)) ∧
    (l.nullSensitive = true → sets l.sig .null = sets' l.sig .null)

/-- Where no leaf moved, the whole predicate has the value it had. -/
theorem evalCtx_of_still {row : Row} {sets sets' : NodeSets} (p : CompiledPredicate) :
    ∀ un, (∀ l ∈ p.inLeaves un, Still row sets sets' l) →
      p.evalCtx row sets.eval = p.evalCtx row sets'.eval := by
  induction p using CompiledPredicate.induction_on with
  | matchAll => exact fun _ _ => rfl
  | cmp col op value => intro un h; simp only [evalCtx]
  | isNull col b => intro un h; simp only [evalCtx]
  | and ps ih =>
    intro un h
    simp only [evalCtx]
    apply evalAnd_congr
    intro p hp
    exact ih p hp un fun l hl => h l (by rw [inLeaves]; exact mem_inLeavesList.mpr ⟨p,hp,hl⟩)
  | or ps ih =>
    intro un h
    simp only [evalCtx]
    apply evalOr_congr
    intro p hp
    exact ih p hp un fun l hl => h l (by rw [inLeaves]; exact mem_inLeavesList.mpr ⟨p,hp,hl⟩)
  | not p ih =>
    intro un h
    simp only [evalCtx]
    rw [ih true fun l hl => h l (by rwa [inLeaves])]
  | inSubquery col sig negated =>
    intro un h
    have hl := h ⟨col,sig,negated,negated || un⟩ (by simp [inLeaves])
    exact evalCtx_inSubquery_congr hl.1 fun hneg => hl.2 (by rw [hneg]; rfl)

/-- A leaf that moved on a row has the row read back for a value that flipped. -/
lemma readsBack_of_moved {p : CompiledPredicate} {row : Row} {sets sets' : NodeSets} {l : InLeaf}
    (hfinds : p.Finds equals) (hl : l ∈ p.collectInLeaves) (hmoved : ¬Still row sets sets' l) :
    ∃ sig v, sets.Flipped sets' sig v ∧ ∀ w, v.eqv w = true → p.readsBack equals row sig w = true := by
  rw [Still,not_and_or] at hmoved
  rcases hmoved with hcell | hnull
  · obtain ⟨hc,hne⟩ := Classical.not_imp.mp hcell
    refine ⟨l.sig,row.cell l.col,hne,fun w hw => readsBack_of_leaf (q := .byCol l.col w) hl ?_ ?_⟩
    · have hw' : w ≠ .null := by
        rintro rfl
        exact hc ((Value.eqv_null _).mp hw)
      rw [InLeaf.requery,if_neg hw']
    · exact hfinds l hl w row hc hw
  · obtain ⟨hsensitive,hne⟩ := Classical.not_imp.mp hnull
    refine ⟨l.sig,.null,hne,fun w hw => ?_⟩
    obtain rfl := (Value.null_eqv w).mp hw
    exact readsBack_of_leaf (q := .all) hl (by simp [InLeaf.requery,hsensitive]) rfl

/-- A row that a change of the sets moves in or out has a leaf that moved. -/
lemma exists_moved_leaf {p : CompiledPredicate} {row : Row} {sets sets' : NodeSets}
    (h : p.matchesCtx row sets.eval ≠ p.matchesCtx row sets'.eval) :
    ∃ l ∈ p.collectInLeaves, ¬Still row sets sets' l := by
  by_contra hnone
  apply h
  have hstill : ∀ l ∈ p.collectInLeaves, Still row sets sets' l := by
    intro l hl
    by_contra hmoved
    exact hnone ⟨l,hl,hmoved⟩
  rw [matchesCtx,matchesCtx,evalCtx_of_still p false hstill]

/-- A row that a change of the sets moves in or out is read back for one of the values that flipped. -/
theorem moved_readsBack (p : CompiledPredicate) (row : Row) (sets sets' : NodeSets) (hfinds : p.Finds equals)
    (h : p.matchesCtx row sets.eval ≠ p.matchesCtx row sets'.eval) :
    ∃ sig v, sets.Flipped sets' sig v ∧ ∀ w, v.eqv w = true → p.readsBack equals row sig w = true := by
  obtain ⟨l,hl,hmoved⟩ := exists_moved_leaf h
  exact readsBack_of_moved hfinds hl hmoved

theorem moved_readsBack_entered :
    ∃ sig v, NodeSets.Flipped (fun _ _ => false) (fun _ v => v.eqv (.int 1)) sig v ∧
      ∀ w, v.eqv w = true → (inSubquery 0 "s" false).readsBack .meant ⟨[.int 1]⟩ sig w = true :=
  moved_readsBack _ _ _ _ (fun l _ => ColumnEquality.finds_meant l.col) (by decide)

/-- The leaf, on the row, is TRUE in both states of the nodes or in neither, to SQL; and means the same
in both, where it may stand under a `Not`. -/
def SqlStill (row : Row) (S S' : Assignment) (l : InLeaf) : Prop :=
  (row.cell l.col ≠ .null → (S.Mem l.sig (row.cell l.col) ↔ S'.Mem l.sig (row.cell l.col))) ∧
    (l.nullSensitive = true → (.null ∈ S l.sig ↔ .null ∈ S' l.sig) ∧
      (row.cell l.col = .null → (S l.sig = ∅ ↔ S' l.sig = ∅)))

lemma sqlIn_eq_yes (S : Assignment) (sig : SubquerySig) (cell : Value) :
    sqlIn S sig cell = .yes ↔ cell ≠ .null ∧ S.Mem sig cell := by
  rw [sqlIn]
  split_ifs <;> simp_all

/-- `x IN S` where neither the members like `x` nor NULL among them nor, for a NULL `x`, the emptiness of
the set changed. -/
lemma sqlIn_congr {S S' : Assignment} {sig : SubquerySig} {cell : Value}
    (hmem : cell ≠ .null → (S.Mem sig cell ↔ S'.Mem sig cell)) (hnull : .null ∈ S sig ↔ .null ∈ S' sig)
    (hempty : cell = .null → (S sig = ∅ ↔ S' sig = ∅)) : sqlIn S sig cell = sqlIn S' sig cell := by
  by_cases hc : cell = .null
  · simp [sqlIn,hc,hempty hc]
  · by_cases hm : S'.Mem sig cell
    · simp [sqlIn,hc,hmem hc,hm]
    · have hmaybe : ∀ T : Assignment, .null ∈ T sig → T sig ≠ ∅ := fun T hT he => by simp [he] at hT
      by_cases hn : Value.null ∈ S' sig
      · simp [sqlIn,hc,hmem hc,hm,hnull,hn,hmaybe S' hn,hmaybe S (hnull.mpr hn)]
      · simp [sqlIn,hc,hmem hc,hm,hnull,hn]

/-- What SQL shows of a predicate that may stand under a `Not` is its value, and otherwise whether it is
TRUE: AND and OR are monotone, so an UNKNOWN for a FALSE does not show. -/
theorem sqlEval_of_still {row : Row} {S S' : Assignment} (p : CompiledPredicate) :
    ∀ un, (∀ l ∈ p.inLeaves un, SqlStill row S S' l) →
      (un = true → p.sqlEval row S = p.sqlEval row S') ∧
        (p.sqlEval row S = .yes ↔ p.sqlEval row S' = .yes) := by
  induction p using CompiledPredicate.induction_on with
  | matchAll => exact fun _ _ => ⟨fun _ => rfl,Iff.rfl⟩
  | cmp col op value => exact fun _ _ => ⟨fun _ => by simp only [sqlEval],by simp only [sqlEval]⟩
  | isNull col b => exact fun _ _ => ⟨fun _ => by simp only [sqlEval],by simp only [sqlEval]⟩
  | and ps ih =>
    intro un h
    have hps : ∀ p ∈ ps, (un = true → p.sqlEval row S = p.sqlEval row S') ∧
        (p.sqlEval row S = .yes ↔ p.sqlEval row S' = .yes) := fun p hp =>
      ih p hp un fun l hl => h l (by rw [inLeaves]; exact mem_inLeavesList.mpr ⟨p,hp,hl⟩)
    simp only [sqlEval,sqlEvals_eq_map]
    refine ⟨fun hun => congrArg Truth.conj (List.map_congr_left fun p hp => (hps p hp).1 hun),?_⟩
    simp only [Truth.conj_eq_yes,List.forall_mem_map]
    exact forall₂_congr fun p hp => (hps p hp).2
  | or ps ih =>
    intro un h
    have hps : ∀ p ∈ ps, (un = true → p.sqlEval row S = p.sqlEval row S') ∧
        (p.sqlEval row S = .yes ↔ p.sqlEval row S' = .yes) := fun p hp =>
      ih p hp un fun l hl => h l (by rw [inLeaves]; exact mem_inLeavesList.mpr ⟨p,hp,hl⟩)
    simp only [sqlEval,sqlEvals_eq_map]
    refine ⟨fun hun => congrArg Truth.disj (List.map_congr_left fun p hp => (hps p hp).1 hun),?_⟩
    simp only [Truth.disj_eq_yes,List.mem_map,exists_exists_and_eq_and]
    exact exists_congr fun p => and_congr_right fun hp => (hps p hp).2
  | not p ih =>
    intro un h
    have hp := (ih true fun l hl => h l (by rwa [inLeaves])).1 rfl
    simp only [sqlEval,hp,implies_true,and_self]
  | inSubquery col sig negated =>
    intro un h
    have hl := h ⟨col,sig,negated,negated || un⟩ (by simp [inLeaves])
    -- a leaf that no `Not` can turn is read by whether it is TRUE, which a NULL in the set leaves alone
    have hsame : negated = true ∨ un = true →
        sqlIn S sig (row.cell col) = sqlIn S' sig (row.cell col) := fun hun =>
      sqlIn_congr hl.1 (hl.2 (by simpa using hun)).1 (hl.2 (by simpa using hun)).2
    constructor
    · intro hun
      simp only [sqlEval,hsame (.inr hun)]
    · cases negated with
      | true => simp only [sqlEval,hsame (.inl rfl)]
      | false =>
        simp only [sqlEval,Bool.false_eq_true,if_false,sqlIn_eq_yes]
        exact and_congr_right hl.1

/-- A row that SQL moves in or out when the inner queries' values change is read back for a value that came
or went: all but a NULL under a `Not` whose inner query came to be empty, or no longer is. -/
theorem sql_moved_readsBack (p : CompiledPredicate) (row : Row) (S S' : Assignment) (hfinds : p.Finds equals)
    (h : ¬(p.sqlEval row S = .yes ↔ p.sqlEval row S' = .yes)) :
    (∃ sig v, NodeSets.Flipped (fun sig v => decide (S.Mem sig v)) (fun sig v => decide (S'.Mem sig v)) sig v ∧
      ∀ w, v.eqv w = true → p.readsBack equals row sig w = true) ∨
    ∃ l ∈ p.collectInLeaves, l.nullSensitive = true ∧ row.cell l.col = .null ∧ ¬(S l.sig = ∅ ↔ S' l.sig = ∅) := by
  by_contra hnone
  rw [not_or] at hnone
  apply h
  refine (sqlEval_of_still p false fun l hl => ?_).2
  have hstill : Still row (fun sig v => decide (S.Mem sig v)) (fun sig v => decide (S'.Mem sig v)) l := by
    by_contra hmoved
    exact hnone.1 (readsBack_of_moved hfinds hl hmoved)
  have hmem : ∀ T : Assignment, T.Mem l.sig .null ↔ Value.null ∈ T l.sig := by
    intro T
    simp [Assignment.Mem]
  refine ⟨fun hc => decide_eq_decide.mp (hstill.1 hc),fun hs => ⟨?_,fun hc => ?_⟩⟩
  · rw [← hmem,← hmem]
    exact decide_eq_decide.mp (hstill.2 hs)
  · by_contra hempty
    exact hnone.2 ⟨l,hl,hs,hc,hempty⟩

theorem sql_moved_readsBack_entered :
    (∃ sig v, NodeSets.Flipped (fun sig v => decide (Assignment.Mem (fun _ => ∅) sig v))
        (fun sig v => decide (Assignment.Mem (fun _ => {.int 1}) sig v)) sig v ∧
      ∀ w, v.eqv w = true → (inSubquery 0 "s" false).readsBack .meant ⟨[.int 1]⟩ sig w = true) ∨
    ∃ l ∈ (inSubquery 0 "s" false).collectInLeaves, l.nullSensitive = true ∧
      Row.cell ⟨[.int 1]⟩ l.col = .null ∧ ¬((∅ : Finset Value) = ∅ ↔ ({.int 1} : Finset Value) = ∅) :=
  sql_moved_readsBack _ _ _ _ (fun l _ => ColumnEquality.finds_meant l.col)
    (by simp [sqlEval,sqlIn,Assignment.Mem,Row.cell])

end CompiledPredicate
end ElectricCircuits
