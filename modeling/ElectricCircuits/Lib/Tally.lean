import ElectricCircuits.Lib.AssocMap
import Mathlib.Tactic.Ring

/-! A list of items by multiplicity: a finite map that counts, for each key, the items equal to it, and
drops a key that counts for nothing. -/
namespace Tally
variable {α : Type*} [BEq α]

/-- Count `w` more of `k`. -/
def bump (m : AssocMap α ℤ) (k : α) (w : ℤ) : AssocMap α ℤ :=
  let n := (m.get? k).getD 0+w
  if n ≤ 0 then m.erase k else m.insert k n

/-- The map holds the multiplicities of the list, and nothing else. -/
def Counts (m : AssocMap α ℤ) (xs : List α) : Prop :=
  ∀ k, m.get? k = if xs.countP (· == k) = 0 then none else some (xs.countP (· == k) : ℤ)

variable {m : AssocMap α ℤ} {xs ys : List α}

lemma counts_empty : Counts (AssocMap.empty : AssocMap α ℤ) [] := fun _ => rfl

lemma Counts.perm (h : Counts m xs) (hperm : xs.Perm ys) : Counts m ys := by
  intro k
  rw [h k,hperm.countP_eq]

lemma Counts.getD (h : Counts m xs) (k : α) : (m.get? k).getD 0 = xs.countP (· == k) := by
  rw [h k]
  split_ifs with h0
  · simp [h0]
  · rfl

lemma countP_cons_of_beq {x k : α} (h : (x == k) = true) (xs : List α) :
    (x::xs).countP (· == k) = xs.countP (· == k)+1 := List.countP_cons_of_pos h

lemma countP_cons_of_not_beq {x k : α} (h : ¬(x == k) = true) (xs : List α) :
    (x::xs).countP (· == k) = xs.countP (· == k) := List.countP_cons_of_neg h

variable [EquivBEq α]

/-- Equal keys count the same items. -/
lemma countP_beq {k k' : α} (h : (k == k') = true) (xs : List α) :
    xs.countP (· == k) = xs.countP (· == k') :=
  List.countP_congr fun _ _ => ⟨fun hx => BEq.trans hx h,fun hx => BEq.trans hx (BEq.symm h)⟩

lemma Counts.add (h : Counts m xs) (x : α) : Counts (bump m x 1) (x::xs) := by
  intro k
  have hn : (m.get? x).getD 0+1 = (xs.countP (· == x)+1 : ℕ) := by
    rw [h.getD x]
    rfl
  rw [bump,hn,if_neg (by omega),AssocMap.get?_insert]
  by_cases hk : (x == k) = true
  · rw [if_pos hk,countP_cons_of_beq hk,if_neg (Nat.succ_ne_zero _),countP_beq hk]
  · rw [if_neg hk,countP_cons_of_not_beq hk,h k]

lemma Counts.remove {x : α} (h : Counts m (x::xs)) : Counts (bump m x (-1)) xs := by
  intro k
  have hn : (m.get? x).getD 0+-1 = (xs.countP (· == x) : ℕ) := by
    rw [h.getD x,countP_cons_of_beq BEq.rfl]
    push_cast
    ring
  rw [bump,hn]
  by_cases hk : (x == k) = true
  · by_cases hle : (xs.countP (· == x) : ℤ) ≤ 0
    · rw [if_pos hle,AssocMap.get?_erase,if_pos hk,← countP_beq hk,if_pos (by omega)]
    · rw [if_neg hle,AssocMap.get?_insert,if_pos hk,← countP_beq hk,if_neg (by omega)]
  · have hsame := h k
    rw [countP_cons_of_not_beq hk] at hsame
    by_cases hle : (xs.countP (· == x) : ℤ) ≤ 0
    · rw [if_pos hle,AssocMap.get?_erase,if_neg hk,hsame]
    · rw [if_neg hle,AssocMap.get?_insert,if_neg hk,hsame]

lemma Counts.mem_of_key (h : Counts m xs) {k : α} (hk : k ∈ m.keys) : ∃ x ∈ xs, (x == k) = true := by
  obtain ⟨⟨k,n⟩,hmem,rfl⟩ := List.mem_map.mp hk
  have hn := AssocMap.get?_of_mem hmem
  rw [h k] at hn
  split_ifs at hn with h0
  exact List.countP_pos_iff.mp (Nat.pos_of_ne_zero h0)

lemma Counts.key_of_mem (h : Counts m xs) {x : α} (hx : x ∈ xs) : ∃ k ∈ m.keys, (k == x) = true := by
  have hpos : 0 < xs.countP (· == x) := List.countP_pos_iff.mpr ⟨x,hx,BEq.rfl⟩
  have hsome := h x
  rw [if_neg hpos.ne'] at hsome
  obtain ⟨k,hk,hmem⟩ := AssocMap.get?_eq_some.mp hsome
  exact ⟨k,List.mem_map.mpr ⟨_,hmem,rfl⟩,hk⟩

end Tally
