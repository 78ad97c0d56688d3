import Mathlib.Data.List.Basic

/-! Three-valued truth as the chain no < maybe < yes: conjunction is the minimum of a list of
truth values, disjunction the maximum, and negation turns the chain around. -/
namespace ThreeValued

inductive Truth where
  | no
  | maybe
  | yes
  deriving DecidableEq

namespace Truth

def ofBool (b : Bool) : Truth := if b then yes else no

/-- An answer that may be unknown. -/
def ofAnswer : Option Bool → Truth
  | none => maybe
  | some b => ofBool b

def neg : Truth → Truth
  | no => yes
  | maybe => maybe
  | yes => no

def min : Truth → Truth → Truth
  | no, _ => no
  | _, no => no
  | maybe, _ => maybe
  | _, maybe => maybe
  | yes, yes => yes

def max : Truth → Truth → Truth
  | yes, _ => yes
  | _, yes => yes
  | maybe, _ => maybe
  | _, maybe => maybe
  | no, no => no

/-- The minimum of a list; the empty conjunction holds. -/
def conj (xs : List Truth) : Truth := xs.foldr min yes

/-- The maximum of a list; the empty disjunction fails. -/
def disj (xs : List Truth) : Truth := xs.foldr max no

@[simp] lemma conj_nil : conj [] = yes := rfl
@[simp] lemma conj_cons (x : Truth) (xs : List Truth) : conj (x::xs) = min x (conj xs) := rfl
@[simp] lemma disj_nil : disj [] = no := rfl
@[simp] lemma disj_cons (x : Truth) (xs : List Truth) : disj (x::xs) = max x (disj xs) := rfl

@[simp] lemma neg_neg (x : Truth) : x.neg.neg = x := by cases x <;> rfl
@[simp] lemma neg_eq_yes (x : Truth) : x.neg = yes ↔ x = no := by cases x <;> simp [neg]
@[simp] lemma neg_eq_no (x : Truth) : x.neg = no ↔ x = yes := by cases x <;> simp [neg]

@[simp] lemma ofBool_eq_yes (b : Bool) : ofBool b = yes ↔ b = true := by cases b <;> simp [ofBool]
@[simp] lemma ofBool_eq_no (b : Bool) : ofBool b = no ↔ b = false := by cases b <;> simp [ofBool]

lemma min_eq_yes (x y : Truth) : min x y = yes ↔ x = yes ∧ y = yes := by
  cases x <;> cases y <;> simp [min]
lemma min_eq_no (x y : Truth) : min x y = no ↔ x = no ∨ y = no := by
  cases x <;> cases y <;> simp [min]
lemma max_eq_yes (x y : Truth) : max x y = yes ↔ x = yes ∨ y = yes := by
  cases x <;> cases y <;> simp [max]
lemma max_eq_no (x y : Truth) : max x y = no ↔ x = no ∧ y = no := by
  cases x <;> cases y <;> simp [max]

/-- A conjunction holds when every conjunct does. -/
theorem conj_eq_yes (xs : List Truth) : conj xs = yes ↔ ∀ x ∈ xs, x = yes := by
  induction xs with
  | nil => simp
  | cons x xs ih => simp only [conj_cons,min_eq_yes,ih,List.forall_mem_cons]

/-- A conjunction fails when some conjunct does. -/
theorem conj_eq_no (xs : List Truth) : conj xs = no ↔ ∃ x ∈ xs, x = no := by
  induction xs with
  | nil => simp
  | cons x xs ih => simp only [conj_cons,min_eq_no,ih,List.exists_mem_cons_iff]

/-- A disjunction holds when some disjunct does. -/
theorem disj_eq_yes (xs : List Truth) : disj xs = yes ↔ ∃ x ∈ xs, x = yes := by
  induction xs with
  | nil => simp
  | cons x xs ih => simp only [disj_cons,max_eq_yes,ih,List.exists_mem_cons_iff]

/-- A disjunction fails when every disjunct does. -/
theorem disj_eq_no (xs : List Truth) : disj xs = no ↔ ∀ x ∈ xs, x = no := by
  induction xs with
  | nil => simp
  | cons x xs ih => simp only [disj_cons,max_eq_no,ih,List.forall_mem_cons]

/-- A truth value is known by when it holds and when it fails. -/
lemma ext_of_iff {x y : Truth} (hyes : x = yes ↔ y = yes) (hno : x = no ↔ y = no) : x = y := by
  cases x <;> cases y <;> simp_all

/-- The order of the conjuncts does not matter. -/
theorem conj_perm {xs ys : List Truth} (h : xs.Perm ys) : conj xs = conj ys := by
  apply ext_of_iff
  · simp only [conj_eq_yes,h.mem_iff]
  · simp only [conj_eq_no,h.mem_iff]

/-- The order of the disjuncts does not matter. -/
theorem disj_perm {xs ys : List Truth} (h : xs.Perm ys) : disj xs = disj ys := by
  apply ext_of_iff
  · simp only [disj_eq_yes,h.mem_iff]
  · simp only [disj_eq_no,h.mem_iff]

end Truth
end ThreeValued
