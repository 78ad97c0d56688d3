import Mathlib.Data.List.Basic

/-! Scanning a text item by item, and what two scans that go along with each other have in common. -/

namespace Lexer
variable {ε α τ : Type}

/-- At most an item each turn, until nothing is left. -/
def loop (one : List α → Except ε (Option τ × List α)) (stuck : ε) : ℕ → List α → Except ε (List τ)
  | _,[] => .ok []
  | 0,_ => .error stuck
  | n+1,cs => do
    let (t,rest) ← one cs
    return t.toList ++ (← loop one stuck n rest)

/-- As many turns as there is text. -/
def scan (one : List α → Except ε (Option τ × List α)) (stuck : ε) (cs : List α) : Except ε (List τ) :=
  loop one stuck cs.length cs

/-- Each turn takes something. -/
def Takes (one : List α → Except ε (Option τ × List α)) : Prop :=
  ∀ cs t rest, cs ≠ [] → one cs = .ok (t,rest) → ∃ taken, taken ≠ [] ∧ cs = taken ++ rest

variable {one : List α → Except ε (Option τ × List α)} {stuck : ε}

lemma Takes.shorter (h : Takes one) {cs rest : List α} {t : Option τ} (hne : cs ≠ [])
    (hone : one cs = .ok (t,rest)) : rest.length < cs.length := by
  obtain ⟨taken,htaken,hcs⟩ := h cs t rest hne hone
  have hpos := List.length_pos_iff.mpr htaken
  rw [hcs,List.length_append]
  omega

lemma loop_cons (n : ℕ) (c : α) (cs : List α) : loop one stuck (n+1) (c :: cs) =
    (one (c :: cs) >>= fun r => loop one stuck n r.2 >>= fun ts => .ok (r.1.toList ++ ts)) := rfl

/-- More turns than there is text change nothing. -/
lemma loop_enough (h : Takes one) (n : ℕ) : ∀ (m : ℕ) (cs : List α), cs.length ≤ n → cs.length ≤ m →
    loop one stuck n cs = loop one stuck m cs := by
  induction n with
  | zero =>
    intro m cs hn hm
    rw [List.length_eq_zero_iff.mp (Nat.le_zero.mp hn)]
    cases m <;> rfl
  | succ n ih =>
    intro m cs hn hm
    cases cs with
    | nil => cases m <;> rfl
    | cons c cs =>
      rw [List.length_cons] at hn hm
      obtain ⟨m,rfl⟩ : ∃ m', m = m'+1 := ⟨m-1,by omega⟩
      rw [loop_cons,loop_cons]
      cases hone : one (c :: cs) with
      | error e => rfl
      | ok r =>
        have hlt := h.shorter (List.cons_ne_nil c cs) hone
        rw [List.length_cons] at hlt
        change (loop one stuck n r.2 >>= _) = (loop one stuck m r.2 >>= _)
        rw [ih m r.2 (by omega) (by omega)]

lemma scan_error {cs : List α} {e : ε} (hne : cs ≠ []) (hone : one cs = .error e) :
    scan one stuck cs = .error e := by
  obtain ⟨c,cs,rfl⟩ := List.exists_cons_of_ne_nil hne
  rw [scan,List.length_cons,loop_cons,hone]
  rfl

/-- A turn of the scan. -/
lemma scan_ok (h : Takes one) {cs rest : List α} {t : Option τ} (hne : cs ≠ []) (hone : one cs = .ok (t,rest)) :
    scan one stuck cs = (scan one stuck rest).map (t.toList ++ ·) := by
  have hlt := h.shorter hne hone
  obtain ⟨c,cs,rfl⟩ := List.exists_cons_of_ne_nil hne
  rw [List.length_cons] at hlt
  rw [scan,List.length_cons,loop_cons,hone]
  change (loop one stuck cs.length rest >>= fun ts => .ok (t.toList ++ ts)) = _
  rw [loop_enough h cs.length rest.length rest (by omega) (Nat.le_refl _),← scan]
  cases scan one stuck rest <;> rfl

/-- A scan that ends in items ends so behind its first turn. -/
lemma scan_rest (h : Takes one) {cs rest : List α} {t : Option τ} (hne : cs ≠ []) (hone : one cs = .ok (t,rest))
    {its : List τ} (hits : scan one stuck cs = .ok its) : ∃ its', scan one stuck rest = .ok its' := by
  rw [scan_ok h hne hone] at hits
  cases hrest : scan one stuck rest with
  | error e =>
    rw [hrest] at hits
    cases hits
  | ok its' => exact ⟨its',rfl⟩

section Along
variable {σ β : Type} {two : List α → Except ε (Option σ × List α)}

/-- The items of `cs`, each as `f` reads it, are those of `out`. -/
def Along (one : List α → Except ε (Option τ × List α)) (two : List α → Except ε (Option σ × List α)) (stuck : ε)
    (f : τ → Option σ) (cs out : List α) : Prop :=
  (scan one stuck cs).map (List.map f) = (scan two stuck out).map (List.map some)

variable {f : τ → Option σ} {cs out cs' out' : List α} {i : Option τ} {t : Option σ}

lemma along_nil : Along one two stuck f [] [] := rfl

/-- Two scans that stop at the same error go along with each other. -/
lemma along_error {e : ε} (hcs : cs ≠ []) (hout : out ≠ []) (hone : one cs = .error e) (htwo : two out = .error e) :
    Along one two stuck f cs out := by
  rw [Along,scan_error hcs hone,scan_error hout htwo]
  rfl

/-- Past the same item there is the rest to compare. -/
lemma along_step (h : Takes one) (h' : Takes two) (hcs : cs ≠ []) (hout : out ≠ [])
    (hone : one cs = .ok (i,cs')) (htwo : two out = .ok (t,out')) (hf : i.map f = t.map some) :
    Along one two stuck f cs out ↔ Along one two stuck f cs' out' := by
  rw [Along,scan_ok h hcs hone,scan_ok h' hout htwo,Along]
  have hsame : i.toList.map f = t.toList.map some := by
    cases i <;> cases t <;> simp_all
  cases scan one stuck cs' <;> cases scan two stuck out' <;>
    simp [Except.map,List.map_append,hsame]

lemma along_ok {its : List τ} (h : scan one stuck cs = .ok its) (halong : Along one two stuck f cs out) :
    ∃ ts, scan two stuck out = .ok ts := by
  rw [Along,h] at halong
  cases hts : scan two stuck out with
  | error e =>
    rw [hts] at halong
    cases halong
  | ok ts => exact ⟨ts,rfl⟩

/-- Another item at the start, or none where there was one. -/
lemma not_along (h : Takes one) (h' : Takes two) {item : τ} {its : List τ} (hcs : cs ≠ []) (hout : out ≠ [])
    (hone : one cs = .ok (some item,cs')) (hits : scan one stuck cs = .ok its)
    (htwo : ∀ s rest, two out = .ok (s,rest) → ∃ s', s = some s' ∧ f item ≠ some s') :
    ¬Along one two stuck f cs out := by
  intro halong
  obtain ⟨ts,hts⟩ := along_ok hits halong
  cases hout' : two out with
  | error e =>
    rw [scan_error hout hout'] at hts
    cases hts
  | ok r =>
    have hturn : two out = .ok (r.1,r.2) := hout'
    obtain ⟨s',hs,hne⟩ := htwo r.1 r.2 hturn
    rw [Along,scan_ok h hcs hone,scan_ok h' hout hturn,hs] at halong
    cases hrest : scan one stuck cs' with
    | error e =>
      rw [scan_ok h hcs hone,hrest] at hits
      cases hits
    | ok rest =>
      cases hrest' : scan two stuck r.2 with
      | error e =>
        rw [hrest,hrest'] at halong
        cases halong
      | ok rest' =>
        rw [hrest,hrest'] at halong
        simp only [Except.map,Option.toList_some,List.singleton_append,List.map_cons,Except.ok.injEq,
          List.cons.injEq] at halong
        exact hne halong.1

end Along
end Lexer
