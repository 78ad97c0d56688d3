import ElectricCircuits.Lib.Formula
import ElectricCircuits.Predicate
import Mathlib.Data.Finset.Basic

/-! SQL's three-valued reading of a compiled predicate, and where the evaluator departs from it. -/
namespace ElectricCircuits
open ThreeValued

/-- The values each subquery signature stands for, NULL among them or not. -/
abbrev Assignment := SubquerySig → Finset Value

/-- Membership as cells compare. -/
def Assignment.Mem (S : Assignment) (sig : SubquerySig) (v : Value) : Prop :=
  ∃ w ∈ S sig, v.eqv w = true

instance (S : Assignment) (sig : SubquerySig) (v : Value) : Decidable (S.Mem sig v) :=
  inferInstanceAs (Decidable (∃ w ∈ S sig, v.eqv w = true))

/-- How an assignment answers the evaluator. -/
def Assignment.eval (S : Assignment) : SubqueryEval where
  contains sig v := decide (S.Mem sig v)
  hasNull sig := decide (Value.null ∈ S sig)

namespace LeafOp

/-- What an operator makes of the order of two values; the order says nothing of LIKE. -/
def holds : LeafOp → Ordering → Bool
  | .eq,o => o == .eq
  | .neq,o => o != .eq
  | .lt,o => o == .lt
  | .lte,o => o != .gt
  | .gt,o => o == .gt
  | .gte,o => o != .lt
  | .like,_ => false

/-- What an operator asks of two points of an order. -/
def Relates {α : Type*} [LinearOrder α] : LeafOp → α → α → Prop
  | .eq,x,y => x = y
  | .neq,x,y => x ≠ y
  | .lt,x,y => x < y
  | .lte,x,y => x ≤ y
  | .gt,x,y => y < x
  | .gte,x,y => y ≤ x
  | .like,_,_ => False

lemma holds_compare {α : Type*} [LinearOrder α] (op : LeafOp) (x y : α) :
    op.holds (compare x y) = true ↔ op.Relates x y := by
  cases op with
  | eq => rw [holds,beq_iff_eq,compare_eq_iff_eq,Relates]
  | neq => rw [holds,bne_iff_ne,ne_eq,compare_eq_iff_eq,Relates]
  | lt => rw [holds,beq_iff_eq,compare_lt_iff_lt,Relates]
  | lte => rw [holds,bne_iff_ne,ne_eq,compare_gt_iff_gt,not_lt,Relates]
  | gt => rw [holds,beq_iff_eq,compare_gt_iff_gt,Relates]
  | gte => rw [holds,bne_iff_ne,ne_eq,compare_lt_iff_lt,not_lt,Relates]
  | like => simp [holds,Relates]

end LeafOp

open Classical in
/-- A comparison in SQL: unknown on NULL, and otherwise decided by the order of the column's type.
Cells of two types are never equal and have no order. -/
noncomputable def sqlCmp (cell : Value) (op : LeafOp) (value : Value) : Truth :=
  if cell = .null ∨ value = .null then .maybe
  else
    match op with
    | .eq => Truth.ofBool (decide (cell.code = value.code))
    | .neq => Truth.ofBool (decide (cell.code ≠ value.code))
    | .like =>
      match cell,value with
      | .text c,.text p => Truth.ofBool (decide (SqlLike p.toList c.toList))
      | _,_ => .maybe
    | .lt => if cell.rank = value.rank then Truth.ofBool (decide (cell.code < value.code)) else .maybe
    | .lte => if cell.rank = value.rank then Truth.ofBool (decide (cell.code ≤ value.code)) else .maybe
    | .gt => if cell.rank = value.rank then Truth.ofBool (decide (value.code < cell.code)) else .maybe
    | .gte => if cell.rank = value.rank then Truth.ofBool (decide (value.code ≤ cell.code)) else .maybe

/-- Of two cells of one type a comparison says what the operator makes of their order. -/
lemma sqlCmp_eq_holds {x y : Value} {op : LeafOp} (hop : op ≠ .like) (hx : x ≠ .null) (hy : y ≠ .null)
    (hrank : x.rank = y.rank) : sqlCmp x op y = Truth.ofBool (op.holds (compare x.code y.code)) := by
  have hholds : ∀ (p : Prop) [Decidable p], (p ↔ op.Relates x.code y.code) →
      Truth.ofBool (decide p) = Truth.ofBool (op.holds (compare x.code y.code)) := by
    intro p _ hp
    refine congrArg Truth.ofBool ?_
    rw [Bool.eq_iff_iff,decide_eq_true_iff,LeafOp.holds_compare,hp]
  unfold sqlCmp
  rw [if_neg (not_or.mpr ⟨hx,hy⟩)]
  cases op with
  | like => exact absurd rfl hop
  | eq => exact hholds _ Iff.rfl
  | neq => exact hholds _ Iff.rfl
  | lt =>
    dsimp only
    rw [if_pos hrank]
    exact hholds (x.code < y.code) Iff.rfl
  | lte =>
    dsimp only
    rw [if_pos hrank]
    exact hholds (x.code ≤ y.code) Iff.rfl
  | gt =>
    dsimp only
    rw [if_pos hrank]
    exact hholds (y.code < x.code) Iff.rfl
  | gte =>
    dsimp only
    rw [if_pos hrank]
    exact hholds (y.code ≤ x.code) Iff.rfl

/-- `x IN S` in SQL: true for a member, false on the empty set and for a known non-member of a set
without NULL, unknown otherwise. -/
def sqlIn (S : Assignment) (sig : SubquerySig) (cell : Value) : Truth :=
  if cell ≠ .null ∧ S.Mem sig cell then .yes
  else if S sig = ∅ ∨ (cell ≠ .null ∧ .null ∉ S sig) then .no
  else .maybe

namespace CompiledPredicate

mutual

/-- SQL's value of a predicate on a row. -/
noncomputable def sqlEval (row : Row) (S : Assignment) : CompiledPredicate → Truth
  | .matchAll => .yes
  | .cmp col op value => sqlCmp (row.cell col) op value
  | .isNull col b => Truth.ofBool (decide (row.cell col = .null) == b)
  | .and ps => Truth.conj (sqlEvals row S ps)
  | .or ps => Truth.disj (sqlEvals row S ps)
  | .not p => (sqlEval row S p).neg
  | .inSubquery col sig negated =>
    if negated then (sqlIn S sig (row.cell col)).neg else sqlIn S sig (row.cell col)

noncomputable def sqlEvals (row : Row) (S : Assignment) : List CompiledPredicate → List Truth
  | [] => []
  | p :: ps => sqlEval row S p :: sqlEvals row S ps

end

lemma sqlEvals_eq_map (row : Row) (S : Assignment) (ps : List CompiledPredicate) :
    sqlEvals row S ps = ps.map (sqlEval row S) := by
  induction ps with
  | nil => rfl
  | cons p ps ih => rw [sqlEvals,ih,List.map_cons]

mutual

/-- The leaves of a predicate, each with whether it stands under an odd number of NOTs. -/
def leaves (odd : Bool) : CompiledPredicate → List (Bool × CompiledPredicate)
  | .and ps => leavesList odd ps
  | .or ps => leavesList odd ps
  | .not p => leaves (!odd) p
  | p => [(odd,p)]

def leavesList (odd : Bool) : List CompiledPredicate → List (Bool × CompiledPredicate)
  | [] => []
  | p :: ps => leaves odd p ++ leavesList odd ps

end

lemma mem_leavesList (odd : Bool) (ps : List CompiledPredicate) (l : Bool × CompiledPredicate) :
    l ∈ leavesList odd ps ↔ ∃ p ∈ ps, l ∈ leaves odd p := by
  induction ps with
  | nil => simp [leavesList]
  | cons p ps ih => simp [leavesList,ih]

mutual

/-- A predicate as a formula over its leaves. -/
def formula : CompiledPredicate → Formula CompiledPredicate
  | .and ps => Formula.all (formulas ps)
  | .or ps => Formula.any (formulas ps)
  | .not p => .not (formula p)
  | p => .leaf p

def formulas : List CompiledPredicate → List (Formula CompiledPredicate)
  | [] => []
  | p :: ps => formula p :: formulas ps

end

lemma formulas_eq_map (ps : List CompiledPredicate) : formulas ps = ps.map formula := by
  induction ps with
  | nil => rfl
  | cons p ps ih => rw [formulas,ih,List.map_cons]

lemma mem_leaves_formula (p : CompiledPredicate) : ∀ odd l, l ∈ p.formula.leaves odd ↔ l ∈ leaves odd p := by
  induction p using CompiledPredicate.induction_on with
  | and ps ih =>
    intro odd l
    rw [formula,Formula.mem_leaves_all,formulas_eq_map,leaves,mem_leavesList]
    simp only [List.mem_map,exists_exists_and_eq_and]
    exact exists_congr fun p => and_congr_right fun hp => ih p hp odd l
  | or ps ih =>
    intro odd l
    rw [formula,Formula.mem_leaves_any,formulas_eq_map,leaves,mem_leavesList]
    simp only [List.mem_map,exists_exists_and_eq_and]
    exact exists_congr fun p => and_congr_right fun hp => ih p hp odd l
  | not p ih => exact fun odd => ih (!odd)
  | _ => exact fun _ _ => Iff.rfl

def isLeaf : CompiledPredicate → Bool
  | .and _ => false
  | .or _ => false
  | .not _ => false
  | _ => true

lemma isLeaf_of_mem_leaves (p : CompiledPredicate) :
    ∀ odd, ∀ l ∈ leaves odd p, l.2.isLeaf = true := by
  induction p using CompiledPredicate.induction_on with
  | and ps ih =>
    intro odd l hl
    obtain ⟨p,hp,hlp⟩ := (mem_leavesList odd ps l).mp hl
    exact ih p hp odd l hlp
  | or ps ih =>
    intro odd l hl
    obtain ⟨p,hp,hlp⟩ := (mem_leavesList odd ps l).mp hl
    exact ih p hp odd l hlp
  | not p ih => exact fun odd l hl => ih (!odd) l hl
  | _ => simp [leaves,isLeaf]

/-- A leaf whose value the evaluator misreads where it shows: under an even number of NOTs only
being TRUE shows, under an odd number only being FALSE.

A NULL cell is unknown to the evaluator even on the empty set; an `IN` ignores a NULL among the
values; a `NOT IN` lets such a NULL hide that the cell is a member; and a `LIKE` reads a `%` that
meets a literal `%` of the text as that character alone. -/
def Misread (row : Row) (S : Assignment) (odd : Bool) : CompiledPredicate → Prop
  | .inSubquery col sig negated =>
    (row.cell col = .null ∧ S sig = ∅ ∧ negated ≠ odd) ∨
      (odd = true ∧ row.cell col ≠ .null ∧ .null ∈ S sig ∧ (S.Mem sig (row.cell col) ↔ negated))
  | .cmp col .like (.text p) =>
    ∃ c, row.cell col = .text c ∧ SqlLike p.toList c.toList ∧ ¬ScanLike p.toList c.toList
  | _ => False

end CompiledPredicate

/-- The evaluator's truth values as SQL's. -/
def Tri.truth : Tri → Truth
  | .true => .yes
  | .false => .no
  | .unknown => .maybe

namespace Tri

@[simp] lemma truth_fromBool (b : Bool) : (fromBool b).truth = Truth.ofBool b := by cases b <;> rfl
@[simp] lemma truth_eq_yes (t : Tri) : t.truth = .yes ↔ t = .true := by cases t <;> simp [truth]
@[simp] lemma truth_eq_no (t : Tri) : t.truth = .no ↔ t = .false := by cases t <;> simp [truth]

lemma min_true (u : Truth) : Tri.true.truth.min u = u := by cases u <;> rfl
lemma max_false (u : Truth) : Tri.false.truth.max u = u := by cases u <;> rfl

end Tri

lemma truth_ordering (cell value : Value) (hcell : cell ≠ .null) (f : Ordering → Bool) (P : Prop)
    [Decidable P] (hf : f (compare cell.code value.code) = true ↔ P) :
    (match cell.ordering value with
      | some ord => Tri.fromBool (f ord)
      | none => Tri.unknown).truth =
        if cell.rank = value.rank then Truth.ofBool (decide P) else Truth.maybe := by
  rw [Value.ordering_eq]
  by_cases h : cell.rank = value.rank
  · simp only [h,hcell,ne_eq,not_false_eq_true,and_self,if_true,Tri.truth_fromBool]
    congr 1
    rw [Bool.eq_iff_iff,hf,decide_eq_true_iff]
  · simp [h,Tri.truth]

/-- Every comparison other than LIKE is read as SQL reads it. -/
theorem cmp_truth (cell : Value) (op : LeafOp) (value : Value) (hop : op ≠ .like) :
    (cmp cell op value).truth = sqlCmp cell op value := by
  by_cases h : cell = .null ∨ value = .null
  · simp [cmp,sqlCmp,h,Tri.truth]
  · have hcell : cell ≠ .null := fun hc => h (.inl hc)
    cases op with
    | eq => simp [cmp,sqlCmp,h,← Value.eqv_iff_code]
    | neq => simp [cmp,sqlCmp,h,← Value.eqv_iff_code]
    | like => exact absurd rfl hop
    | lt =>
      simp only [cmp,sqlCmp,h,if_false]
      exact truth_ordering cell value hcell Ordering.isLT _ (by rw [Ordering.isLT_iff_eq_lt,compare_lt_iff_lt])
    | lte =>
      simp only [cmp,sqlCmp,h,if_false]
      exact truth_ordering cell value hcell Ordering.isLE _
        (by rw [Ordering.isLE_iff_ne_gt]; exact compare_le_iff_le)
    | gt =>
      simp only [cmp,sqlCmp,h,if_false]
      exact truth_ordering cell value hcell Ordering.isGT _ (by rw [Ordering.isGT_iff_eq_gt,compare_gt_iff_gt])
    | gte =>
      simp only [cmp,sqlCmp,h,if_false]
      exact truth_ordering cell value hcell Ordering.isGE _
        (by rw [Ordering.isGE_iff_ne_lt]; exact compare_ge_iff_ge)

namespace CompiledPredicate

/-- The loop over the conjuncts computes their conjunction. -/
lemma truth_evalAnd (row : Row) (ev : SubqueryEval) (acc : Tri) (hacc : acc ≠ .false)
    (ps : List CompiledPredicate) : (evalAnd row ev acc ps).truth =
      Truth.min acc.truth (Truth.conj (ps.map fun p => (p.evalCtx row ev).truth)) := by
  induction ps generalizing acc with
  | nil => cases acc <;> simp [evalAnd,Truth.min,Tri.truth]
  | cons p ps ih =>
    rw [List.map_cons,Truth.conj_cons]
    generalize Truth.conj (ps.map fun p => (p.evalCtx row ev).truth) = rest at ih
    cases h : p.evalCtx row ev with
    | true =>
      simp only [evalAnd,h]
      rw [ih _ hacc]
      cases acc <;> cases rest <;> rfl
    | false =>
      simp only [evalAnd,h]
      cases acc <;> cases rest <;> rfl
    | unknown =>
      simp only [evalAnd,h]
      rw [ih .unknown (by decide)]
      cases acc <;> cases rest <;> first | rfl | exact absurd rfl hacc

/-- The loop over the disjuncts computes their disjunction. -/
lemma truth_evalOr (row : Row) (ev : SubqueryEval) (acc : Tri) (hacc : acc ≠ .true)
    (ps : List CompiledPredicate) : (evalOr row ev acc ps).truth =
      Truth.max acc.truth (Truth.disj (ps.map fun p => (p.evalCtx row ev).truth)) := by
  induction ps generalizing acc with
  | nil => cases acc <;> simp [evalOr,Truth.max,Tri.truth]
  | cons p ps ih =>
    rw [List.map_cons,Truth.disj_cons]
    generalize Truth.disj (ps.map fun p => (p.evalCtx row ev).truth) = rest at ih
    cases h : p.evalCtx row ev with
    | true =>
      simp only [evalOr,h]
      cases acc <;> cases rest <;> rfl
    | false =>
      simp only [evalOr,h]
      rw [ih _ hacc]
      cases acc <;> cases rest <;> rfl
    | unknown =>
      simp only [evalOr,h]
      rw [ih .unknown (by decide)]
      cases acc <;> cases rest <;> first | rfl | exact absurd rfl hacc

/-- SQL's value of a predicate is that of the formula over its leaves. -/
lemma value_sqlEval (row : Row) (S : Assignment) (p : CompiledPredicate) :
    p.formula.value (sqlEval row S) = p.sqlEval row S := by
  induction p using CompiledPredicate.induction_on with
  | and ps ih =>
    rw [formula,Formula.value_all,formulas_eq_map,List.map_map,sqlEval,sqlEvals_eq_map]
    exact congrArg Truth.conj (List.map_congr_left ih)
  | or ps ih =>
    rw [formula,Formula.value_any,formulas_eq_map,List.map_map,sqlEval,sqlEvals_eq_map]
    exact congrArg Truth.disj (List.map_congr_left ih)
  | not p ih => rw [formula,Formula.value,ih,sqlEval]
  | _ => rfl

/-- The evaluator's value is too. -/
lemma value_evalCtx (row : Row) (ev : SubqueryEval) (p : CompiledPredicate) :
    (p.formula.value fun l => (l.evalCtx row ev).truth) = (p.evalCtx row ev).truth := by
  induction p using CompiledPredicate.induction_on with
  | and ps ih =>
    rw [formula,Formula.value_all,formulas_eq_map,List.map_map,evalCtx,truth_evalAnd _ _ _ (by decide),
      Tri.min_true]
    exact congrArg Truth.conj (List.map_congr_left ih)
  | or ps ih =>
    rw [formula,Formula.value_any,formulas_eq_map,List.map_map,evalCtx,truth_evalOr _ _ _ (by decide),
      Tri.max_false]
    exact congrArg Truth.disj (List.map_congr_left ih)
  | not p ih =>
    rw [formula,Formula.value,ih,evalCtx]
    cases p.evalCtx row ev <;> rfl
  | _ => rfl

/-- What shows of a predicate under `odd` NOTs agrees with SQL. -/
def Agrees (row : Row) (S : Assignment) (odd : Bool) (p : CompiledPredicate) : Prop :=
  match odd with
  | false => p.evalCtx row S.eval = .true ↔ p.sqlEval row S = .yes
  | true => p.evalCtx row S.eval = .false ↔ p.sqlEval row S = .no

lemma agrees_of_truth {row : Row} {S : Assignment} {p : CompiledPredicate}
    (h : (p.evalCtx row S.eval).truth = p.sqlEval row S) (odd : Bool) : Agrees row S odd p := by
  cases odd
  · simp [Agrees,← h]
  · simp [Agrees,← h]

lemma agrees_like {row : Row} {S : Assignment} (odd : Bool) (col : ℕ) (value : Value) :
    Agrees row S odd (.cmp col .like value) ↔ ¬Misread row S odd (.cmp col .like value) := by
  cases hv : value with
  | text p =>
    cases hc : row.cell col with
    | text c =>
      have hs : ScanLike p.toList c.toList → SqlLike p.toList c.toList := ScanLike.sqlLike
      have he : likeMatch c p = false ↔ ¬ScanLike p.toList c.toList := by
        rw [← likeMatch_iff,Bool.not_eq_true]
      cases odd <;>
        simp [Agrees,evalCtx,sqlEval,Misread,ElectricCircuits.cmp,sqlCmp,hc,likeMatch_iff,he] <;> tauto
    | _ =>
      cases odd <;> simp [Agrees,evalCtx,sqlEval,Misread,ElectricCircuits.cmp,sqlCmp,hc]
  | _ =>
    cases hc : row.cell col <;> cases odd <;>
      simp [Agrees,evalCtx,sqlEval,Misread,ElectricCircuits.cmp,sqlCmp,hc]

lemma agrees_inSubquery {row : Row} {S : Assignment} (odd : Bool) (col : ℕ) (sig : SubquerySig)
    (negated : Bool) : Agrees row S odd (.inSubquery col sig negated) ↔
      ¬Misread row S odd (.inSubquery col sig negated) := by
  by_cases hc : row.cell col = .null
  · by_cases hS : S sig = ∅ <;> cases odd <;> cases negated <;>
      simp [Agrees,evalCtx,sqlEval,Misread,sqlIn,hc,hS,Truth.neg]
  · have hne : S.Mem sig (row.cell col) → S sig ≠ ∅ := by
      rintro ⟨w,hw,-⟩ he
      simp [he] at hw
    have hnn : .null ∈ S sig → S sig ≠ ∅ := fun hw he => by simp [he] at hw
    by_cases hm : S.Mem sig (row.cell col) <;> by_cases hn : .null ∈ S sig <;>
      cases odd <;> cases negated <;>
      simp_all [Agrees,evalCtx,sqlEval,Misread,sqlIn,Assignment.eval,Truth.neg]

/-- A leaf agrees with SQL exactly when it is not misread. -/
theorem agrees_leaf {row : Row} {S : Assignment} (odd : Bool) {p : CompiledPredicate}
    (hp : p.isLeaf = true) : Agrees row S odd p ↔ ¬Misread row S odd p := by
  cases p with
  | matchAll => simpa [Misread] using agrees_of_truth (by simp [evalCtx,sqlEval,Tri.truth]) odd
  | cmp col op value =>
    by_cases hop : op = .like
    · subst hop
      exact agrees_like odd col value
    · have ht : ((cmp col op value).evalCtx row S.eval).truth = (cmp col op value).sqlEval row S := by
        simpa only [evalCtx,sqlEval] using cmp_truth (row.cell col) op value hop
      have hm : ¬Misread row S odd (.cmp col op value) := by cases op <;> simp_all [Misread]
      exact iff_of_true (agrees_of_truth ht odd) hm
  | isNull col b => simpa [Misread] using agrees_of_truth (by simp [evalCtx,sqlEval]) odd
  | inSubquery col sig negated => exact agrees_inSubquery odd col sig negated
  | and ps => cases hp
  | or ps => cases hp
  | not p => cases hp

lemma agrees_iff_shows {row : Row} {S : Assignment} (odd : Bool) (p : CompiledPredicate) :
    Agrees row S odd p ↔ (Formula.Shows odd (p.sqlEval row S) ↔ Formula.Shows odd (p.evalCtx row S.eval).truth) := by
  cases odd <;> simp [Agrees,Formula.Shows,iff_comm]

/-- The leaves that are not misread decide in SQL's logic whether the predicate is TRUE, as `b` says: a misread leaf
counts for nothing beside a FALSE one in an AND, or beside a TRUE one in an OR. -/
def Settled (row : Row) (S : Assignment) (p : CompiledPredicate) (b : Bool) : Prop :=
  p.formula.Settled (fun odd l => ¬Misread row S odd l) (sqlEval row S) false b

/-- The misread leaves all show in SQL and are missed, or none of them shows and all are taken to. -/
def OneSided (row : Row) (S : Assignment) (p : CompiledPredicate) : Prop :=
  p.formula.OneSided (fun odd l => ¬Misread row S odd l) (sqlEval row S) false

/-- A row is included as SQL includes it when the leaves that are not misread settle the predicate, and, unless two
misread leaves err in opposite directions, only then. -/
theorem matchesCtx_iff_sql (row : Row) (S : Assignment) (p : CompiledPredicate) :
    ((∃ b, p.Settled row S b) → (p.matchesCtx row S.eval = true ↔ p.sqlEval row S = .yes)) ∧
      (p.OneSided row S →
        ((p.matchesCtx row S.eval = true ↔ p.sqlEval row S = .yes) ↔ ∃ b, p.Settled row S b)) := by
  have hleaves : ∀ l ∈ p.formula.leaves false, ¬Misread row S l.1 l.2 ↔
      (Formula.Shows l.1 (l.2.sqlEval row S) ↔ Formula.Shows l.1 (l.2.evalCtx row S.eval).truth) := by
    rintro ⟨odd,l⟩ hl
    have hleaf := isLeaf_of_mem_leaves p false _ ((mem_leaves_formula p false _).mp hl)
    rw [← agrees_leaf odd hleaf,agrees_iff_shows]
  have hshows : (p.matchesCtx row S.eval = true ↔ p.sqlEval row S = .yes) ↔
      (Formula.Shows false (p.formula.value (sqlEval row S)) ↔
        Formula.Shows false (p.formula.value fun l => (l.evalCtx row S.eval).truth)) := by
    rw [value_sqlEval,value_evalCtx,← agrees_iff_shows]
    simp [matchesCtx,Agrees]
  have hsound : (∃ b, p.Settled row S b) → (p.matchesCtx row S.eval = true ↔ p.sqlEval row S = .yes) :=
    fun ⟨_,hb⟩ => hshows.mpr (Formula.shows_congr_of_settled (fun l hl => (hleaves l hl).mp) hb)
  exact ⟨hsound,fun hone =>
    ⟨fun h => Formula.settled_of_shows_congr hleaves hone (hshows.mp h),hsound⟩⟩

/-- Beside TRUE in an OR a misread leaf does not count. -/
example : (CompiledPredicate.or [.matchAll,.inSubquery 0 "s" true]).Settled ⟨[.null]⟩ (fun _ => ∅) true := by
  simp [Settled,formula,formulas,Formula.any,Formula.Settled,Formula.Shows,Misread,sqlEval]

/-- A NULL cell is `NOT IN` the empty set, and the evaluator leaves its row out. -/
theorem matchesCtx_ne_sql :
    ¬∀ (p : CompiledPredicate) (row : Row) (S : Assignment),
      p.matchesCtx row S.eval = true ↔ p.sqlEval row S = .yes := by
  intro h
  have hsql := (h (.inSubquery 0 "s" true) ⟨[.null]⟩ fun _ => ∅).mpr (by
    simp [sqlEval,sqlIn,Row.cell,Truth.neg])
  have hcode : matchesCtx (.inSubquery 0 "s" true) ⟨[.null]⟩ (Assignment.eval fun _ => ∅) = false := by
    decide
  rw [hcode] at hsql
  cases hsql

end CompiledPredicate
end ElectricCircuits
