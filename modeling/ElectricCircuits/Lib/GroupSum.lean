import ElectricCircuits.Lib.AssocMap
import Mathlib.Algebra.BigOperators.Group.List.Basic
import Mathlib.Tactic.Abel

/-! Weighted items: the net weight of those that pass a test, and the net weight of each group of them. A
test that does not tell the keys of one group apart gives the same weight over the groups. -/
namespace GroupSum
variable {α κ : Type*}

/-- The net weight of the items that pass. -/
def weight (p : α → Bool) (d : List (α × ℤ)) : ℤ := ((d.filter fun t => p t.1).map (·.2)).sum

@[simp] lemma weight_nil (p : α → Bool) : weight p [] = 0 := rfl

@[simp] lemma weight_cons (p : α → Bool) (t : α × ℤ) (d : List (α × ℤ)) :
    weight p (t::d) = (if p t.1 then t.2 else 0)+weight p d := by
  cases h : p t.1 <;> simp [weight,h]

@[simp] lemma weight_append (p : α → Bool) (d d' : List (α × ℤ)) :
    weight p (d ++ d') = weight p d+weight p d' := by simp [weight]

/-- Items of no weight count for nothing. -/
lemma weight_filter_ne (p : α → Bool) (d : List (α × ℤ)) :
    weight p (d.filter fun t => decide (t.2 ≠ 0)) = weight p d := by
  induction d with
  | nil => rfl
  | cons t d ih =>
    by_cases h : t.2 = 0
    · rw [List.filter_cons_of_neg (by simp [h]),ih,weight_cons]
      simp [h]
    · rw [List.filter_cons_of_pos (by simp [h]),weight_cons,weight_cons,ih]

variable [BEq κ]

/-- The groups in the order in which they come, each with its net weight. -/
def totals (key : α → κ) (d : List (α × ℤ)) : AssocMap κ ℤ :=
  d.foldl (fun m t => m.modify (key t.1) 0 (· + t.2)) .empty

/-- The groups whose weights do not cancel. -/
def groups (key : α → κ) (d : List (α × ℤ)) : List (κ × ℤ) :=
  (totals key d).entries.filter fun t => decide (t.2 ≠ 0)

section
variable [EquivBEq κ] {p : κ → Bool}

lemma weight_update (hp : ∀ a b, (a == b) = true → p a = p b) (k : κ) (v : ℤ) {l : List (κ × ℤ)}
    (hnodup : l.Pairwise fun s t => (s.1 == t.1) = false) :
    weight p (l.map fun t => if t.1 == k then (t.1,v) else t) =
      weight p l+((l.find? (·.1 == k)).map fun t => if p k then v-t.2 else 0).getD 0 := by
  induction l with
  | nil => rfl
  | cons t l ih =>
    obtain ⟨ht,hl⟩ := List.pairwise_cons.mp hnodup
    rw [List.map_cons,weight_cons,weight_cons,ih hl]
    cases hk : t.1 == k with
    | false => simp [hk,add_assoc]
    | true =>
      have hrest : l.find? (·.1 == k) = none := by
        refine List.find?_eq_none.mpr fun s hs hsk => ?_
        have hts := BEq.trans hk (BEq.symm hsk)
        rw [ht s hs] at hts
        cases hts
      simp only [List.find?_cons,hk,hrest,if_true,hp _ _ hk,Option.map_some,Option.getD_some,
        Option.map_none,Option.getD_none]
      split_ifs <;> abel

/-- What one entry of a map weighs is replaced. -/
lemma weight_insert (hp : ∀ a b, (a == b) = true → p a = p b) (m : AssocMap κ ℤ) (k : κ) (v : ℤ) :
    weight p (m.insert k v).entries = weight p m.entries+if p k then v-(m.get? k).getD 0 else 0 := by
  unfold AssocMap.insert
  split_ifs with hfresh hk hk
  · have hnone : m.get? k = none := AssocMap.get?_eq_none.mpr fun t ht => by
      simpa using List.any_eq_false.mp hfresh t ht
    simp [hk,hnone]
  · simp [hk]
  · rw [weight_update hp k v m.nodup,AssocMap.get?]
    cases hfind : m.entries.find? (·.1 == k) with
    | some t => simp [hk]
    | none =>
      refine absurd (List.any_eq_false.mpr fun t ht => ?_) hfresh
      exact List.find?_eq_none.mp hfind t ht
  · rw [weight_update hp k v m.nodup]
    cases m.entries.find? (·.1 == k) <;> simp [hk]

lemma weight_totals (hp : ∀ a b, (a == b) = true → p a = p b) (key : α → κ) (d : List (α × ℤ)) :
    weight p (totals key d).entries = weight (p ∘ key) d := by
  have hgen : ∀ m : AssocMap κ ℤ,
      weight p (d.foldl (fun m t => m.modify (key t.1) 0 (· + t.2)) m).entries =
        weight p m.entries+weight (p ∘ key) d := by
    induction d with
    | nil => simp
    | cons t d ih =>
      intro m
      rw [List.foldl_cons,ih,AssocMap.modify,weight_insert hp,weight_cons,Function.comp]
      split_ifs <;> abel
  rw [totals,hgen .empty]
  exact zero_add _

/-- Over the groups a test weighs what it weighs over the items. -/
theorem weight_groups (hp : ∀ a b, (a == b) = true → p a = p b) (key : α → κ) (d : List (α × ℤ)) :
    weight p (groups key d) = weight (p ∘ key) d := by
  rw [groups,weight_filter_ne,weight_totals hp]

omit [EquivBEq κ] in
lemma weight_eq_zero {k : κ} {l : List (κ × ℤ)} (h : ∀ t ∈ l, (t.1 == k) = false) : weight (· == k) l = 0 := by
  rw [weight,List.filter_eq_nil_iff.mpr fun t ht => by simp [h t ht]]
  rfl

/-- A key of a map weighs what its entry says. -/
lemma weight_entries (m : AssocMap κ ℤ) (k : κ) : weight (· == k) m.entries = (m.get? k).getD 0 := by
  cases hw : m.get? k with
  | none => exact weight_eq_zero (AssocMap.get?_eq_none.mp hw)
  | some w =>
    obtain ⟨k',hk,hmem⟩ := AssocMap.get?_eq_some.mp hw
    obtain ⟨l,l',hl⟩ := List.append_of_mem hmem
    have hnodup := m.nodup
    rw [hl,List.pairwise_append,List.pairwise_cons] at hnodup
    obtain ⟨-,⟨hafter,-⟩,hbefore⟩ := hnodup
    have hne : ∀ {a : κ}, (a == k') = false → (a == k) = false := fun h => by rwa [BEq.congr_right hk] at h
    rw [hl,weight_append,weight_cons,weight_eq_zero fun t ht => hne (hbefore t ht _ List.mem_cons_self),
      weight_eq_zero fun t ht => hne (by rw [BEq.comm]; exact hafter t ht)]
    simp [hk]

lemma weight_eq_get? (key : α → κ) (d : List (α × ℤ)) (k : κ) :
    weight (fun t => key t == k) d = ((totals key d).get? k).getD 0 := by
  have hrespects : ∀ a b : κ, (a == b) = true → (a == k) = (b == k) := fun a b h => by rw [BEq.congr_left h]
  rw [← weight_entries]
  exact (weight_totals hrespects key d).symm

lemma mem_groups {key : α → κ} {d : List (α × ℤ)} {k : κ} {w : ℤ} (h : (k,w) ∈ groups key d) :
    weight (fun t => key t == k) d = w ∧ w ≠ 0 := by
  obtain ⟨hmem,hw⟩ := List.mem_filter.mp h
  rw [weight_eq_get?,AssocMap.get?_of_mem hmem]
  exact ⟨rfl,of_decide_eq_true hw⟩

lemma exists_group {key : α → κ} {d : List (α × ℤ)} {k : κ} (h : weight (fun t => key t == k) d ≠ 0) :
    ∃ k' w, (k' == k) = true ∧ (k',w) ∈ groups key d := by
  rw [weight_eq_get?] at h
  cases hw : (totals key d).get? k with
  | none => simp [hw] at h
  | some w =>
    rw [hw,Option.getD_some] at h
    obtain ⟨k',hk,hmem⟩ := AssocMap.get?_eq_some.mp hw
    exact ⟨k',w,hk,List.mem_filter.mpr ⟨hmem,decide_eq_true h⟩⟩

omit [EquivBEq κ] in
lemma pairwise_groups (key : α → κ) (d : List (α × ℤ)) :
    (groups key d).Pairwise fun s t => (s.1 == t.1) = false := (totals key d).nodup.filter _

end

example : groups id [(1,2),(2,1),(1,-2)] = [(2,1)] := by decide

end GroupSum
