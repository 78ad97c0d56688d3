import Mathlib.Data.List.Forall2
import Mathlib.Data.List.Basic

/-! Reading a text back: pieces that are delimited, escaped or joined with a separator are found again
in the text they are part of, and so is what follows them. -/
namespace Delimited
variable {α β γ : Type*}

/-- Marked letters up to a letter without the mark. -/
theorem span_cancel {P : γ → Prop} {xs ys s t : List γ} (hx : ∀ c ∈ xs, P c) (hy : ∀ c ∈ ys, P c)
    (hs : ∀ c ∈ s.head?, ¬P c) (ht : ∀ c ∈ t.head?, ¬P c) (h : xs ++ s = ys ++ t) :
    xs = ys ∧ s = t := by
  induction xs generalizing ys with
  | nil =>
    cases ys with
    | nil => exact ⟨rfl,h⟩
    | cons y ys =>
      rw [List.nil_append] at h
      exact absurd (hy y (List.mem_cons_self ..)) (hs y (by rw [h]; rfl))
  | cons x xs ih =>
    cases ys with
    | nil =>
      rw [List.nil_append] at h
      exact absurd (hx x (List.mem_cons_self ..)) (ht x (by rw [← h]; rfl))
    | cons y ys =>
      obtain ⟨rfl,hrest⟩ := List.cons.inj h
      obtain ⟨hxy,hst⟩ := ih (fun c hc => hx c (.tail _ hc)) (fun c hc => hy c (.tail _ hc)) hrest
      exact ⟨congrArg _ hxy,hst⟩

/-- A text starts with a letter other than the given one. -/
def StartsOff (q : γ) (l : List γ) : Prop := ∃ c r, l = c::r ∧ c ≠ q

lemma StartsOff.append {q : γ} {l : List γ} (h : StartsOff q l) (s : List γ) :
    StartsOff q (l ++ s) := by
  obtain ⟨c,r,rfl,hc⟩ := h
  exact ⟨c,r ++ s,rfl,hc⟩

lemma StartsOff.ne {q : γ} {l : List γ} (h : StartsOff q l) (s : List γ) : l ≠ q::s := by
  obtain ⟨c,r,rfl,hc⟩ := h
  intro he
  exact hc (List.cons.inj he).1

/-- A code for single letters under which no code word is the start of another. -/
def PrefixFree (f : α → List γ) : Prop := ∀ a b s t, f a ++ s = f b ++ t → a = b ∧ s = t

/-- A string of code words ends at a letter that starts none. -/
theorem flatMap_cancel {f : α → List γ} {q : γ} (hf : PrefixFree f) (hq : ∀ a, StartsOff q (f a))
    {xs ys : List α} {s t : List γ} (h : xs.flatMap f ++ q::s = ys.flatMap f ++ q::t) :
    xs = ys ∧ s = t := by
  induction xs generalizing ys with
  | nil =>
    cases ys with
    | nil => exact ⟨rfl,(List.cons.inj h).2⟩
    | cons y ys =>
      rw [List.flatMap_cons,List.append_assoc] at h
      exact absurd h.symm (((hq y).append _).ne s)
  | cons x xs ih =>
    cases ys with
    | nil =>
      rw [List.flatMap_cons,List.append_assoc] at h
      exact absurd h (((hq x).append _).ne t)
    | cons y ys =>
      rw [List.flatMap_cons,List.flatMap_cons,List.append_assoc,List.append_assoc] at h
      obtain ⟨rfl,hrest⟩ := hf _ _ _ _ h
      obtain ⟨hxy,hst⟩ := ih hrest
      exact ⟨congrArg _ hxy,hst⟩

/-- What may follow an element of a joined list. -/
def Follows (sep close : γ) (s : List γ) : Prop := ∃ r, s = sep::r ∨ s = close::r

/-- The elements after the first, each behind a separator. -/
def tail (sep : γ) (f : α → List γ) (xs : List α) : List γ := xs.flatMap fun x => sep :: f x

lemma intercalate_cons (sep : γ) (f : α → List γ) (x : α) (xs : List α) :
    [sep].intercalate ((x::xs).map f) = f x ++ tail sep f xs := by
  induction xs generalizing x with
  | nil => simp [tail]
  | cons y ys ih =>
    rw [List.map_cons,List.map_cons,List.intercalate_cons_cons,← List.map_cons,ih]
    simp [tail]

lemma follows_tail (sep close : γ) (f : α → List γ) (xs : List α) (s : List γ) :
    Follows sep close (tail sep f xs ++ close::s) := by
  cases xs with
  | nil => exact ⟨s,.inr rfl⟩
  | cons x xs => exact ⟨f x ++ tail sep f xs ++ close::s,.inl (by simp [tail])⟩

/-- Two texts of elements agree on what they hold wherever an element may end. -/
def Reads (sep close : γ) (f : α → List γ) (g : β → List γ) (R : α → β → Prop) (a : α) (b : β) :
    Prop :=
  ∀ s t, Follows sep close s → Follows sep close t → f a ++ s = g b ++ t → R a b ∧ s = t

lemma tail_cancel {f : α → List γ} {g : β → List γ} {R : α → β → Prop} {sep close : γ}
    (hne : sep ≠ close) {xs : List α} {ys : List β}
    (hR : ∀ a ∈ xs, ∀ b ∈ ys, Reads sep close f g R a b) {s t : List γ}
    (h : tail sep f xs ++ close::s = tail sep g ys ++ close::t) :
    List.Forall₂ R xs ys ∧ s = t := by
  induction xs generalizing ys with
  | nil =>
    cases ys with
    | nil => exact ⟨.nil,(List.cons.inj h).2⟩
    | cons y ys => exact absurd (List.cons.inj h).1.symm hne
  | cons x xs ih =>
    cases ys with
    | nil => exact absurd (List.cons.inj h).1 hne
    | cons y ys =>
      have h' : f x ++ (tail sep f xs ++ close::s) = g y ++ (tail sep g ys ++ close::t) := by
        simpa [tail] using h
      obtain ⟨hxy,h'⟩ := hR x (.head _) y (.head _) _ _ (follows_tail sep close f xs s)
        (follows_tail sep close g ys t) h'
      obtain ⟨hrest,hst⟩ := ih (fun a ha b hb => hR a (.tail _ ha) b (.tail _ hb)) h'
      exact ⟨.cons hxy hrest,hst⟩

/-- A joined list up to its closing letter gives back its elements. -/
theorem join_cancel {f : α → List γ} {g : β → List γ} {R : α → β → Prop} {sep close : γ}
    (hne : sep ≠ close) {xs : List α} {ys : List β}
    (hf : ∀ a ∈ xs, StartsOff close (f a)) (hg : ∀ b ∈ ys, StartsOff close (g b))
    (hR : ∀ a ∈ xs, ∀ b ∈ ys, Reads sep close f g R a b) {s t : List γ}
    (h : [sep].intercalate (xs.map f) ++ close::s = [sep].intercalate (ys.map g) ++ close::t) :
    List.Forall₂ R xs ys ∧ s = t := by
  cases xs with
  | nil =>
    cases ys with
    | nil => exact ⟨.nil,(List.cons.inj h).2⟩
    | cons y ys =>
      rw [intercalate_cons,List.append_assoc] at h
      exact absurd h.symm (((hg y (.head _)).append _).ne s)
  | cons x xs =>
    cases ys with
    | nil =>
      rw [intercalate_cons,List.append_assoc] at h
      exact absurd h (((hf x (.head _)).append _).ne t)
    | cons y ys =>
      rw [intercalate_cons,intercalate_cons,List.append_assoc,List.append_assoc] at h
      obtain ⟨hxy,h⟩ := hR x (.head _) y (.head _) _ _ (follows_tail sep close f xs s)
        (follows_tail sep close g ys t) h
      obtain ⟨hrest,hst⟩ := tail_cancel hne (fun a ha b hb => hR a (.tail _ ha) b (.tail _ hb)) h
      exact ⟨.cons hxy hrest,hst⟩

lemma toNat_of_isAlpha {c : Char} (h : c.isAlpha = true) :
    65 ≤ c.toNat ∧ c.toNat ≤ 90 ∨ 97 ≤ c.toNat ∧ c.toNat ≤ 122 := by
  have hcase : c.isUpper = true ∨ c.isLower = true := (Bool.or_eq_true _ _).mp h
  rcases hcase with h | h
  · have hrange : decide (c.val ≥ 'A'.val ∧ c.val ≤ 'Z'.val) = true := h
    exact .inl (by simpa [UInt32.le_iff_toNat_le] using hrange)
  · have hrange : (c.val ≥ 'a'.val && c.val ≤ 'z'.val) = true := h
    exact .inr (by simpa [UInt32.le_iff_toNat_le] using hrange)

end Delimited
