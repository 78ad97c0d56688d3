import ElectricCircuits.Like
import ElectricCircuits.Value

/-! The compiled predicate over positional columns and its three-valued evaluation, with subquery
leaves resolved by an evaluation context. -/
namespace ElectricCircuits

inductive LeafOp where
  | eq
  | neq
  | lt
  | lte
  | gt
  | gte
  | like
  deriving DecidableEq

/-- The canonical signature of a subquery node. -/
abbrev SubquerySig := String

inductive CompiledPredicate where
  | matchAll
  | cmp (col : ℕ) (op : LeafOp) (value : Value)
  | isNull (col : ℕ) (isNull : Bool)
  | and (ps : List CompiledPredicate)
  | or (ps : List CompiledPredicate)
  | not (p : CompiledPredicate)
  | inSubquery (col : ℕ) (sig : SubquerySig) (negated : Bool)

/-- What evaluation asks of the subquery registry. -/
structure SubqueryEval where
  contains : SubquerySig → Value → Bool
  hasNull : SubquerySig → Bool

inductive Tri where
  | true
  | false
  | unknown
  deriving DecidableEq

namespace Tri

def fromBool (b : Bool) : Tri := if b then .true else .false

def not : Tri → Tri
  | .true => .false
  | .false => .true
  | .unknown => .unknown

@[simp] lemma fromBool_true : fromBool Bool.true = .true := rfl
@[simp] lemma fromBool_false : fromBool Bool.false = .false := rfl
@[simp] lemma fromBool_eq_true (b : Bool) : fromBool b = .true ↔ b = Bool.true := by
  cases b <;> simp [fromBool]
@[simp] lemma fromBool_eq_false (b : Bool) : fromBool b = .false ↔ b = Bool.false := by
  cases b <;> simp [fromBool]
@[simp] lemma not_eq_true (t : Tri) : t.not = .true ↔ t = .false := by cases t <;> simp [not]
@[simp] lemma not_eq_false (t : Tri) : t.not = .false ↔ t = .true := by cases t <;> simp [not]

end Tri

/-- A leaf comparison; any NULL operand, and an order between two types, is unknown. -/
def cmp (cell : Value) (op : LeafOp) (value : Value) : Tri :=
  if cell = .null ∨ value = .null then .unknown
  else
    match op with
    | .eq => Tri.fromBool (cell.eqv value)
    | .neq => Tri.fromBool (!cell.eqv value)
    | .like =>
      match cell,value with
      | .text c,.text p => Tri.fromBool (likeMatch c p)
      | _,_ => .unknown
    | .lt =>
      match cell.ordering value with
      | some ord => Tri.fromBool ord.isLT
      | none => .unknown
    | .lte =>
      match cell.ordering value with
      | some ord => Tri.fromBool ord.isLE
      | none => .unknown
    | .gt =>
      match cell.ordering value with
      | some ord => Tri.fromBool ord.isGT
      | none => .unknown
    | .gte =>
      match cell.ordering value with
      | some ord => Tri.fromBool ord.isGE
      | none => .unknown

namespace CompiledPredicate

mutual

/-- Evaluation of a predicate on a row. -/
def evalCtx (row : Row) (ev : SubqueryEval) : CompiledPredicate → Tri
  | .matchAll => .true
  | .cmp col op value => ElectricCircuits.cmp (row.cell col) op value
  | .isNull col b => Tri.fromBool (decide (row.cell col = .null) == b)
  | .and ps => evalAnd row ev .true ps
  | .or ps => evalOr row ev .false ps
  | .not p => (evalCtx row ev p).not
  | .inSubquery col sig negated =>
    let cell := row.cell col
    if cell = .null then .unknown
    else
      let present := ev.contains sig cell
      if !negated then Tri.fromBool present
      else if ev.hasNull sig then .unknown
      else Tri.fromBool (!present)

/-- The loop over the conjuncts: the first FALSE returns. -/
def evalAnd (row : Row) (ev : SubqueryEval) (acc : Tri) : List CompiledPredicate → Tri
  | [] => acc
  | p :: ps =>
    match evalCtx row ev p with
    | .false => .false
    | .unknown => evalAnd row ev .unknown ps
    | .true => evalAnd row ev acc ps

/-- The loop over the disjuncts: the first TRUE returns. -/
def evalOr (row : Row) (ev : SubqueryEval) (acc : Tri) : List CompiledPredicate → Tri
  | [] => acc
  | p :: ps =>
    match evalCtx row ev p with
    | .true => .true
    | .unknown => evalOr row ev .unknown ps
    | .false => evalOr row ev acc ps

end

/-- A row is included when the predicate is TRUE on it. -/
def matchesCtx (p : CompiledPredicate) (row : Row) (ev : SubqueryEval) : Bool :=
  decide (p.evalCtx row ev = .true)

/-- Induction over a predicate and the lists it nests. -/
@[elab_as_elim]
theorem induction_on {motive : CompiledPredicate → Prop} (matchAll : motive matchAll)
    (cmp : ∀ col op value, motive (cmp col op value))
    (isNull : ∀ col b, motive (isNull col b))
    (and : ∀ ps, (∀ p ∈ ps, motive p) → motive (and ps))
    (or : ∀ ps, (∀ p ∈ ps, motive p) → motive (or ps))
    (not : ∀ p, motive p → motive (not p))
    (inSubquery : ∀ col sig negated, motive (inSubquery col sig negated)) (p : CompiledPredicate) :
    motive p := by
  refine @CompiledPredicate.rec motive (fun ps => ∀ p ∈ ps, motive p) matchAll cmp isNull and or not
    inSubquery ?_ ?_ p
  · simp
  · intro q qs ih ihs
    exact List.forall_mem_cons.mpr ⟨ih,ihs⟩

lemma evalAnd_eq_true (row : Row) (ev : SubqueryEval) (acc : Tri) (ps : List CompiledPredicate) :
    evalAnd row ev acc ps = .true ↔ acc = .true ∧ ∀ p ∈ ps, p.evalCtx row ev = .true := by
  induction ps generalizing acc with
  | nil => simp [evalAnd]
  | cons p ps ih => cases h : p.evalCtx row ev <;> simp [evalAnd,h,ih]

end CompiledPredicate
end ElectricCircuits
