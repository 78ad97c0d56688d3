import Mathlib.Algebra.Ring.Nat
import Mathlib.Data.List.Basic

/-! Shedding from the front of a list until a running total is within a limit. -/
namespace Shed
variable {α : Type*} (size : α → ℕ) (limit : ℕ)

/-- What is shed, what is left, and whether the list ended with the total over the limit. -/
def shed (total : ℕ) : List α → List α × List α × Bool
  | [] => ([],[],decide (limit < total))
  | a :: as =>
    if limit < total then (a :: (shed (total-size a) as).1,(shed (total-size a) as).2)
    else ([],a :: as,false)

/-- No more is shed than has to be, in the order of the list. -/
structure Sheds (total : ℕ) (as out rest : List α) (excess : Bool) : Prop where
  parts : out ++ rest = as
  emptied : excess = true → rest = []
  within : excess = false → total-(out.map size).sum ≤ limit
  needed : ∀ pre a post, out = pre ++ a :: post → limit < total-(pre.map size).sum

theorem shed_spec (as : List α) (total : ℕ) :
    Sheds size limit total as (shed size limit total as).1 (shed size limit total as).2.1
      (shed size limit total as).2.2 := by
  induction as generalizing total with
  | nil =>
    refine ⟨rfl,fun _ => rfl,fun h => ?_,fun pre a post h => ?_⟩
    · simpa [shed] using h
    · simp [shed] at h
  | cons a as ih =>
    by_cases h : limit < total
    · obtain ⟨hparts,hemptied,hwithin,hneeded⟩ := ih (total-size a)
      rw [shed,if_pos h]
      refine ⟨congrArg (a :: ·) hparts,hemptied,fun hover => ?_,fun pre b post hout => ?_⟩
      · rw [List.map_cons,List.sum_cons,← Nat.sub_sub]
        exact hwithin hover
      · cases pre with
        | nil => simpa using h
        | cons c pre =>
          obtain ⟨rfl,hrest⟩ := List.cons.inj hout
          rw [List.map_cons,List.sum_cons,← Nat.sub_sub]
          exact hneeded pre b post hrest
    · rw [shed,if_neg h]
      refine ⟨rfl,fun hover => absurd hover Bool.false_ne_true,fun _ => ?_,fun pre b post hout => ?_⟩
      · simpa using Nat.le_of_not_lt h
      · simp at hout

end Shed
