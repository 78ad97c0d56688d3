import Mathlib.Data.List.Basic

/-! Readers of a buffer from a position, and what it takes that a reader takes in an encoding: it consumes
that and nothing else, and fails when the buffer ends before it. -/

/-- A buffer and the position reached in it. -/
structure Cursor (β : Type) where
  buf : List β
  pos : ℕ

abbrev Reader (ε β α : Type) := StateT (Cursor β) (Except ε) α

namespace Reader
variable {ε β α α' γ : Type}

/-- Whatever stands around it, a reader meets the encoding with the result; on a strict prefix it fails. -/
structure Reads (rd : Reader ε β α) (enc : List β) (res : Except ε α) : Prop where
  whole : ∀ pre rest, rd.run ⟨pre ++ (enc ++ rest),pre.length⟩ =
    res.map fun a => (a,⟨pre ++ (enc ++ rest),pre.length+enc.length⟩)
  cut : ∀ pre part, part <+: enc → part ≠ enc → ∃ e, rd.run ⟨pre ++ part,pre.length⟩ = .error e

lemma reads_pure (a : α) : Reads (pure a : Reader ε β α) [] (.ok a) where
  whole _ _ := rfl
  cut _ _ hpart hne := absurd (List.prefix_nil.mp hpart) hne

lemma reads_throw (e : ε) : Reads (throw e : Reader ε β α) [] (.error e) where
  whole _ _ := rfl
  cut _ _ hpart hne := absurd (List.prefix_nil.mp hpart) hne

/-- A prefix of two parts ends in the first, or has it whole. -/
lemma prefix_append_cases {part enc enc' : List β} (h : part <+: enc ++ enc') (hne : part ≠ enc ++ enc') :
    (part <+: enc ∧ part ≠ enc) ∨ ∃ part', part = enc ++ part' ∧ part' <+: enc' ∧ part' ≠ enc' := by
  rcases List.prefix_or_prefix_of_prefix h (List.prefix_append enc enc') with hp | ⟨part',rfl⟩
  · by_cases heq : part = enc
    · refine .inr ⟨[],by simpa using heq,List.nil_prefix,?_⟩
      rintro rfl
      exact hne (by simpa using heq)
    · exact .inl ⟨hp,heq⟩
  · refine .inr ⟨part',rfl,(List.prefix_append_right_inj enc).mp h,?_⟩
    rintro rfl
    exact hne rfl

lemma run_bind_ok {rd : Reader ε β α} {f : α → Reader ε β α'} {c c' : Cursor β} {a : α}
    (h : rd.run c = .ok (a,c')) : (rd >>= f).run c = (f a).run c' := by
  rw [StateT.run_bind,h]
  rfl

lemma run_bind_error {rd : Reader ε β α} {f : α → Reader ε β α'} {c : Cursor β} {e : ε}
    (h : rd.run c = .error e) : (rd >>= f).run c = .error e := by
  rw [StateT.run_bind,h]
  rfl

/-- One reader after another takes in one encoding after the other. -/
theorem Reads.bind {rd : Reader ε β α} {enc enc' : List β} {a : α} {f : α → Reader ε β α'}
    {res : Except ε α'} (h : Reads rd enc (.ok a)) (h' : Reads (f a) enc' res) :
    Reads (rd >>= f) (enc ++ enc') res where
  whole pre rest := by
    have hfirst := h.whole pre (enc' ++ rest)
    have hsecond := h'.whole (pre ++ enc) rest
    simp only [List.length_append,List.append_assoc,← Nat.add_assoc] at hfirst hsecond ⊢
    rw [run_bind_ok hfirst,hsecond]
  cut pre part hpart hne := by
    rcases prefix_append_cases hpart hne with ⟨hp,hn⟩ | ⟨part',rfl,hp,hn⟩
    · obtain ⟨e,he⟩ := h.cut pre part hp hn
      exact ⟨e,run_bind_error he⟩
    · obtain ⟨e,he⟩ := h'.cut (pre ++ enc) part' hp hn
      have hfirst := h.whole pre part'
      simp only [List.length_append,List.append_assoc] at he
      exact ⟨e,(run_bind_ok hfirst).trans he⟩

/-- What follows a reader that fails is not read. -/
theorem Reads.bind_error {rd : Reader ε β α} {enc : List β} {e : ε} (h : Reads rd enc (.error e))
    (f : α → Reader ε β α') (enc' : List β) : Reads (rd >>= f) (enc ++ enc') (.error e) where
  whole pre rest := by
    have hfirst := h.whole pre (enc' ++ rest)
    rw [List.append_assoc]
    exact run_bind_error hfirst
  cut pre part hpart hne := by
    rcases prefix_append_cases hpart hne with ⟨hp,hn⟩ | ⟨part',rfl,-,-⟩
    · obtain ⟨e,he⟩ := h.cut pre part hp hn
      exact ⟨e,run_bind_error he⟩
    · exact ⟨e,run_bind_error (h.whole pre part')⟩

/-- The two rules for one reader after another, as one. -/
theorem Reads.then {rd : Reader ε β α} {enc enc' : List β} {res : Except ε α} {f : α → Reader ε β α'}
    {g : α → Except ε α'} (h : Reads rd enc res) (h' : ∀ a, res = .ok a → Reads (f a) enc' (g a)) :
    Reads (rd >>= f) (enc ++ enc') (res >>= g) := by
  cases res with
  | ok a => exact h.bind (h' a rfl)
  | error e => exact h.bind_error f enc'

/-- A last step that reads nothing. -/
lemma Reads.map {rd : Reader ε β α} {enc : List β} {res : Except ε α} (h : Reads rd enc res) (f : α → α') :
    Reads (rd >>= fun a => pure (f a)) enc (res.map f) := by
  have hthen : Reads (rd >>= fun a => pure (f a)) (enc ++ []) (res >>= fun a => .ok (f a)) :=
    h.then fun a _ => reads_pure (f a)
  rw [List.append_nil] at hthen
  cases res <;> exact hthen

/-- A number of readings in a row. -/
def many (rd : Reader ε β α) : ℕ → Reader ε β (List α)
  | 0 => pure []
  | n+1 => do
    let a ← rd
    let as ← many rd n
    pure (a::as)

/-- Items in a row are read up to the first that fails. -/
theorem reads_many {rd : Reader ε β α} {enc : γ → List β} {val : γ → Except ε α} {xs : List γ}
    (h : ∀ x ∈ xs, Reads rd (enc x) (val x)) : Reads (many rd xs.length) (xs.flatMap enc) (xs.mapM val) := by
  induction xs with
  | nil => exact reads_pure []
  | cons x xs ih =>
    obtain ⟨hx,hxs⟩ := List.forall_mem_cons.mp h
    rw [List.flatMap_cons,List.mapM_cons]
    exact hx.then fun a _ => (ih hxs).map _

end Reader
