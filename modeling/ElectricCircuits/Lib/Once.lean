import Mathlib.Data.List.Basic

/-! A log that may hold an entry several times, each under its key: what a reader takes of it that
ignores the keys it has seen. -/
namespace Once
variable {κ α : Type*} [DecidableEq κ]

/-- The values of the entries whose key is new. -/
def values (seen : List κ) : List (κ × α) → List α
  | [] => []
  | e::es => if e.1 ∈ seen then values seen es else e.2::values (e.1::seen) es

@[simp] lemma values_nil (seen : List κ) : values seen ([] : List (κ × α)) = [] := rfl

/-- Only the keys of the log itself matter. -/
lemma values_congr {seen seen' : List κ} {es : List (κ × α)}
    (h : ∀ e ∈ es, e.1 ∈ seen ↔ e.1 ∈ seen') : values seen es = values seen' es := by
  induction es generalizing seen seen' with
  | nil => rfl
  | cons e es ih =>
    rw [values,values]
    have hrest : ∀ e' ∈ es, e'.1 ∈ seen ↔ e'.1 ∈ seen' := fun e' he' => h e' (.tail _ he')
    have hnew : ∀ e' ∈ es, e'.1 ∈ e.1::seen ↔ e'.1 ∈ e.1::seen' := fun e' he' => by
      rw [List.mem_cons,List.mem_cons,hrest e' he']
    simp only [h e (.head _),ih hrest,ih hnew]

lemma values_append (seen : List κ) (xs ys : List (κ × α)) :
    values seen (xs ++ ys) = values seen xs ++ values (xs.map (·.1) ++ seen) ys := by
  induction xs generalizing seen with
  | nil => rfl
  | cons x xs ih =>
    rw [List.cons_append,values,values,ih,ih]
    by_cases hx : x.1 ∈ seen
    · rw [if_pos hx,if_pos hx]
      congr 1
      refine values_congr fun e _ => ?_
      simp only [List.map_cons,List.cons_append,List.mem_cons,List.mem_append]
      constructor
      · exact .inr
      · intro h
        rcases h with heq | h
        · exact .inr (heq ▸ hx)
        · exact h
    · rw [if_neg hx,if_neg hx,List.cons_append]
      congr 2
      refine values_congr fun e _ => ?_
      simp only [List.map_cons,List.cons_append,List.mem_cons,List.mem_append]
      tauto

lemma mem_of_values {seen : List κ} {es : List (κ × α)} {v : α} (h : v ∈ values seen es) :
    ∃ k, (k,v) ∈ es := by
  induction es generalizing seen with
  | nil => cases h
  | cons e es ih =>
    rw [values] at h
    split_ifs at h
    · obtain ⟨k,hk⟩ := ih h
      exact ⟨k,.tail _ hk⟩
    · rcases List.mem_cons.mp h with rfl | h
      · exact ⟨e.1,.head _⟩
      · obtain ⟨k,hk⟩ := ih h
        exact ⟨k,.tail _ hk⟩

lemma values_store {seen : List κ} {es : List (κ × α)} {k : κ} (v : α)
    (h : k ∉ es.map (·.1) ++ seen) : values seen (es ++ [(k,v)]) = values seen es ++ [v] := by
  rw [values_append,values,if_neg h,values_nil]

lemma values_again {seen : List κ} {es : List (κ × α)} {k : κ} (v : α)
    (h : k ∈ es.map (·.1) ++ seen) : values seen (es ++ [(k,v)]) = values seen es := by
  rw [values_append,values,if_pos h,values_nil,List.append_nil]

end Once
