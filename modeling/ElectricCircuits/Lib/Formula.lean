import ElectricCircuits.Lib.ThreeValued

/-! Formulas over leaves with two readings, one of which may fail: a leaf that stands under an even number of
negations is only asked whether it holds, one under an odd number whether it fails. -/
namespace ThreeValued

inductive Formula (α : Type*) where
  | leaf (a : α)
  | const (b : Bool)
  | and (f g : Formula α)
  | or (f g : Formula α)
  | not (f : Formula α)

namespace Formula
variable {α : Type*}

def all (fs : List (Formula α)) : Formula α := fs.foldr and (const true)
def any (fs : List (Formula α)) : Formula α := fs.foldr or (const false)

def value (v : α → Truth) : Formula α → Truth
  | leaf a => v a
  | const b => Truth.ofBool b
  | and f g => (f.value v).min (g.value v)
  | or f g => (f.value v).max (g.value v)
  | not f => (f.value v).neg

/-- A reading fails as a whole when it does on a leaf. -/
def partialValue (w : α → Option Truth) : Formula α → Option Truth
  | leaf a => w a
  | const b => some (Truth.ofBool b)
  | and f g => do return (← f.partialValue w).min (← g.partialValue w)
  | or f g => do return (← f.partialValue w).max (← g.partialValue w)
  | not f => (f.partialValue w).map Truth.neg

/-- The leaves, each with whether it stands under an odd number of negations. -/
def leaves (odd : Bool) : Formula α → List (Bool × α)
  | leaf a => [(odd,a)]
  | const _ => []
  | and f g => f.leaves odd ++ g.leaves odd
  | or f g => f.leaves odd ++ g.leaves odd
  | not f => f.leaves (!odd)

/-- What shows of a value under `odd` negations: that it holds, or that it fails. -/
def Shows (odd : Bool) (t : Truth) : Prop := t = if odd then .no else .yes

/-- The leaves that `right` admits decide by themselves whether the formula shows, as `b` says. -/
def Settled (right : Bool → α → Prop) (v : α → Truth) : Formula α → Bool → Bool → Prop
  | leaf a, odd, b => right odd a ∧ (Shows odd (v a) ↔ b = true)
  | const c, odd, b => Shows odd (Truth.ofBool c) ↔ b = true
  | and f g, odd, b =>
    if b = odd then f.Settled right v odd b ∨ g.Settled right v odd b
    else f.Settled right v odd b ∧ g.Settled right v odd b
  | or f g, odd, b =>
    if b = odd then f.Settled right v odd b ∧ g.Settled right v odd b
    else f.Settled right v odd b ∨ g.Settled right v odd b
  | not f, odd, b => f.Settled right v (!odd) b

/-- The leaves that are not `right` all show, or none of them does. -/
def OneSided (right : Bool → α → Prop) (v : α → Truth) (f : Formula α) (odd : Bool) : Prop :=
  ∃ c, ∀ l ∈ f.leaves odd, ¬right l.1 l.2 → (Shows l.1 (v l.2) ↔ c = true)

@[simp] lemma shows_neg (odd : Bool) (t : Truth) : Shows odd t.neg ↔ Shows (!odd) t := by
  cases odd <;> simp [Shows]

lemma shows_min (odd b : Bool) (t u : Truth) :
    (Shows odd (t.min u) ↔ b = true) ↔
      if b = odd then (Shows odd t ↔ b = true) ∨ (Shows odd u ↔ b = true)
      else (Shows odd t ↔ b = true) ∧ (Shows odd u ↔ b = true) := by
  cases odd <;> cases b <;> simp [Shows,Truth.min_eq_yes,Truth.min_eq_no,imp_iff_not_or]

lemma shows_max (odd b : Bool) (t u : Truth) :
    (Shows odd (t.max u) ↔ b = true) ↔
      if b = odd then (Shows odd t ↔ b = true) ∧ (Shows odd u ↔ b = true)
      else (Shows odd t ↔ b = true) ∨ (Shows odd u ↔ b = true) := by
  cases odd <;> cases b <;> simp [Shows,Truth.max_eq_yes,Truth.max_eq_no,imp_iff_not_or]

/-- Two answers that show differently under `odd` negations: both are known and they are opposite, or one is unknown
and the other shows. -/
def Differ (odd : Bool) : Option Bool → Option Bool → Prop
  | some a,some b => a ≠ b
  | some a,none => a = !odd
  | none,some b => b = !odd
  | none,none => False

lemma differ_iff (odd : Bool) (a b : Option Bool) :
    Differ odd a b ↔ ¬(Shows odd (.ofAnswer a) ↔ Shows odd (.ofAnswer b)) := by
  rcases a with _ | _ | _ <;> rcases b with _ | _ | _ <;> cases odd <;>
    simp [Differ,Shows,Truth.ofAnswer,Truth.ofBool]

section Settled
variable {right : Bool → α → Prop} {v w : α → Truth}

/-- What is settled shows so under every reading that agrees on the right leaves. -/
theorem Settled.shows {f : Formula α} : ∀ {odd b},
    (∀ l ∈ f.leaves odd, right l.1 l.2 → (Shows l.1 (v l.2) ↔ Shows l.1 (w l.2))) →
      f.Settled right v odd b → (Shows odd (f.value w) ↔ b = true) := by
  induction f with
  | leaf a =>
    intro odd b h hs
    exact (h (odd,a) (.head _) hs.1).symm.trans hs.2
  | const c => exact fun _ hs => hs
  | and f g ihf ihg =>
    intro odd b h hs
    obtain ⟨hf,hg⟩ := List.forall_mem_append.mp h
    rw [value,shows_min]
    rw [Settled] at hs
    split_ifs at hs ⊢
    · exact hs.imp (ihf hf) (ihg hg)
    · exact hs.imp (ihf hf) (ihg hg)
  | or f g ihf ihg =>
    intro odd b h hs
    obtain ⟨hf,hg⟩ := List.forall_mem_append.mp h
    rw [value,shows_max]
    rw [Settled] at hs
    split_ifs at hs ⊢
    · exact hs.imp (ihf hf) (ihg hg)
    · exact hs.imp (ihf hf) (ihg hg)
  | not f ih =>
    intro odd b h hs
    rw [value,shows_neg]
    exact ih h hs

/-- A reading that has every other leaf against `b` shows `b` only where it is settled. -/
theorem settled_iff_shows (f : Formula α) : ∀ odd b,
    (∀ l ∈ f.leaves odd, right l.1 l.2 ∧ (Shows l.1 (v l.2) ↔ b = true) ↔ (Shows l.1 (w l.2) ↔ b = true)) →
      (f.Settled right v odd b ↔ (Shows odd (f.value w) ↔ b = true)) := by
  induction f with
  | leaf a => exact fun odd b h => h (odd,a) (.head _)
  | const c => exact fun _ _ _ => Iff.rfl
  | and f g ihf ihg =>
    intro odd b h
    obtain ⟨hf,hg⟩ := List.forall_mem_append.mp h
    rw [Settled,value,shows_min,ihf odd b hf,ihg odd b hg]
  | or f g ihf ihg =>
    intro odd b h
    obtain ⟨hf,hg⟩ := List.forall_mem_append.mp h
    rw [Settled,value,shows_max,ihf odd b hf,ihg odd b hg]
  | not f ih =>
    intro odd b h
    rw [Settled,value,shows_neg]
    exact ih (!odd) b h

/-- A formula is read alike by both readings wherever it is settled. -/
theorem shows_congr_of_settled {f : Formula α} {odd b : Bool}
    (hright : ∀ l ∈ f.leaves odd, right l.1 l.2 → (Shows l.1 (v l.2) ↔ Shows l.1 (w l.2)))
    (hs : f.Settled right v odd b) : Shows odd (f.value v) ↔ Shows odd (f.value w) :=
  (hs.shows fun _ _ _ => Iff.rfl).trans (hs.shows hright).symm

/-- Where the other leaves err in one direction, both readings show the same of a formula only if it is settled. -/
theorem settled_of_shows_congr {f : Formula α} {odd : Bool}
    (hright : ∀ l ∈ f.leaves odd, right l.1 l.2 ↔ (Shows l.1 (v l.2) ↔ Shows l.1 (w l.2)))
    (hone : f.OneSided right v odd) (hvw : Shows odd (f.value v) ↔ Shows odd (f.value w)) :
    ∃ b, f.Settled right v odd b := by
  obtain ⟨c,hc⟩ := hone
  -- the reading that has the other leaves against `b` is one of the two
  have hsettled : ∀ b, f.Settled right v odd b ↔ (Shows odd (f.value (if b = c then w else v)) ↔ b = true) := by
    intro b
    refine settled_iff_shows f odd b fun l hl => ?_
    have hl' := hc l hl
    have hr := hright l hl
    cases b <;> cases c <;> simp only [Bool.false_eq_true,iff_false,iff_true,if_true,if_false] at hl' ⊢ <;> tauto
  by_cases hshow : Shows odd (f.value v)
  · refine ⟨true,(hsettled true).mpr (iff_of_true ?_ rfl)⟩
    split
    · exact hvw.mp hshow
    · exact hshow
  · refine ⟨false,(hsettled false).mpr (iff_of_false ?_ Bool.false_ne_true)⟩
    split
    · exact mt hvw.mpr hshow
    · exact hshow

/-- Where every leaf is right the formula is settled. -/
theorem settled_of_right (f : Formula α) (odd : Bool) (h : ∀ l ∈ f.leaves odd, right l.1 l.2) :
    ∃ b, f.Settled right v odd b :=
  settled_of_shows_congr (w := v) (fun l hl => iff_of_true (h l hl) Iff.rfl)
    ⟨true,fun l hl hl' => absurd (h l hl) hl'⟩ Iff.rfl

end Settled

variable {v : α → Truth} {w : α → Option Truth}

/-- A reading that does not fail on a leaf gives the formula's value. -/
lemma partialValue_eq_some (f : Formula α) : ∀ odd, (∀ l ∈ f.leaves odd, w l.2 ≠ none) →
    f.partialValue w = some (f.value fun a => (w a).getD .maybe) := by
  induction f with
  | leaf a =>
    intro odd h
    obtain ⟨u,hu⟩ := Option.ne_none_iff_exists'.mp (h (odd,a) (.head _))
    rw [partialValue,value,hu,Option.getD_some]
  | const b => exact fun _ _ => rfl
  | and f g ihf ihg =>
    intro odd h
    obtain ⟨hf,hg⟩ := List.forall_mem_append.mp h
    rw [partialValue,ihf odd hf,ihg odd hg]
    rfl
  | or f g ihf ihg =>
    intro odd h
    obtain ⟨hf,hg⟩ := List.forall_mem_append.mp h
    rw [partialValue,ihf odd hf,ihg odd hg]
    rfl
  | not f ih =>
    intro odd h
    rw [partialValue,ih (!odd) h]
    rfl

lemma partialValue_eq_none (f : Formula α) : ∀ odd, (∃ l ∈ f.leaves odd, w l.2 = none) →
    f.partialValue w = none := by
  have hbind : ∀ (op : Truth → Truth → Truth) (x y : Option Truth), x = none ∨ y = none →
      (do return op (← x) (← y) : Option Truth) = none := by
    rintro op x y (rfl | rfl)
    · rfl
    · cases x <;> rfl
  induction f with
  | leaf a =>
    rintro odd ⟨l,hl,h⟩
    obtain rfl := List.mem_singleton.mp hl
    exact h
  | const b => exact fun _ ⟨_,hl,_⟩ => absurd hl List.not_mem_nil
  | and f g ihf ihg =>
    rintro odd ⟨l,hl,h⟩
    exact hbind _ _ _ ((List.mem_append.mp hl).imp (ihf odd ⟨l,·,h⟩) (ihg odd ⟨l,·,h⟩))
  | or f g ihf ihg =>
    rintro odd ⟨l,hl,h⟩
    exact hbind _ _ _ ((List.mem_append.mp hl).imp (ihf odd ⟨l,·,h⟩) (ihg odd ⟨l,·,h⟩))
  | not f ih =>
    intro odd h
    rw [partialValue,ih (!odd) h]
    rfl

/-- When a reading fails on a leaf of the value `t`, and when it shows the leaf otherwise. -/
structure ReadAs (odd : Bool) (t : Truth) (s : Option Truth) (refused misread : Prop) : Prop where
  refused : s = none ↔ refused
  misread : ∀ u, s = some u → ((Shows odd t ↔ Shows odd u) ↔ ¬misread)

section ReadAs
variable {refused : α → Prop} {misread : Bool → α → Prop}

lemma ReadAs.right_iff {odd : Bool} {t : Truth} {s : Option Truth} {p q : Prop} (h : ReadAs odd t s p q) (hp : ¬p) :
    ¬p ∧ ¬q ↔ (Shows odd (s.getD .maybe) ↔ Shows odd t) := by
  obtain ⟨u,hu⟩ := Option.ne_none_iff_exists'.mp (mt h.refused.mp hp)
  rw [and_iff_right hp,← h.misread u hu,hu,Option.getD_some]
  exact iff_comm

/-- Where the leaves that are read right settle the formula, it shows alike in both readings, unless it shows and the
second reading fails. -/
theorem agree_of_settled {f : Formula α} {odd b : Bool}
    (h : ∀ l ∈ f.leaves odd, ReadAs l.1 (v l.2) (w l.2) (refused l.2) (misread l.1 l.2))
    (hs : f.Settled (fun odd a => ¬refused a ∧ ¬misread odd a) (fun a => (w a).getD .maybe) odd b) :
    ((∃ u, f.partialValue w = some u ∧ Shows odd u) ↔ Shows odd (f.value v)) ↔
      (b = true → ∀ l ∈ f.leaves odd, ¬refused l.2) := by
  have hv : Shows odd (f.value v) ↔ b = true :=
    hs.shows fun l hl hright => ((h l hl).right_iff hright.1).mp hright
  by_cases hall : ∀ l ∈ f.leaves odd, ¬refused l.2
  · have hvalue := partialValue_eq_some f odd fun l hl => mt (h l hl).refused.mp (hall l hl)
    have hw := hs.shows (w := fun a => (w a).getD .maybe) fun _ _ _ => Iff.rfl
    simp only [hvalue,Option.some.injEq,exists_eq_left']
    exact iff_of_true (hw.trans hv.symm) fun _ => hall
  · push Not at hall
    obtain ⟨l,hl,hrefused⟩ := hall
    have hvalue := partialValue_eq_none f odd ⟨l,hl,(h l hl).refused.mpr hrefused⟩
    simp only [hvalue,reduceCtorEq,false_and,exists_false,false_iff,hv]
    exact imp_congr_right fun _ => iff_of_false id fun h' => h' l hl hrefused

/-- Where no leaf fails and the misread ones err in one direction, the formula shows alike only if it is settled. -/
theorem agree_iff_settled {f : Formula α} {odd : Bool}
    (h : ∀ l ∈ f.leaves odd, ReadAs l.1 (v l.2) (w l.2) (refused l.2) (misread l.1 l.2))
    (hall : ∀ l ∈ f.leaves odd, ¬refused l.2)
    (hone : f.OneSided (fun odd a => ¬refused a ∧ ¬misread odd a) (fun a => (w a).getD .maybe) odd) :
    ((∃ u, f.partialValue w = some u ∧ Shows odd u) ↔ Shows odd (f.value v)) ↔
      ∃ b, f.Settled (fun odd a => ¬refused a ∧ ¬misread odd a) (fun a => (w a).getD .maybe) odd b := by
  constructor
  · intro hagree
    have hvalue := partialValue_eq_some f odd fun l hl => mt (h l hl).refused.mp (hall l hl)
    simp only [hvalue,Option.some.injEq,exists_eq_left'] at hagree
    exact settled_of_shows_congr (fun l hl => (h l hl).right_iff (hall l hl)) hone hagree
  · rintro ⟨b,hb⟩
    exact (agree_of_settled h hb).mpr fun _ => hall

end ReadAs

lemma mem_leaves_all {odd : Bool} {fs : List (Formula α)} {l : Bool × α} :
    l ∈ (all fs).leaves odd ↔ ∃ f ∈ fs, l ∈ f.leaves odd := by
  induction fs with
  | nil => simp [all,leaves]
  | cons f fs ih =>
    change l ∈ f.leaves odd ++ (all fs).leaves odd ↔ _
    rw [List.mem_append,ih,List.exists_mem_cons_iff]

lemma mem_leaves_any {odd : Bool} {fs : List (Formula α)} {l : Bool × α} :
    l ∈ (any fs).leaves odd ↔ ∃ f ∈ fs, l ∈ f.leaves odd := by
  induction fs with
  | nil => simp [any,leaves]
  | cons f fs ih =>
    change l ∈ f.leaves odd ++ (any fs).leaves odd ↔ _
    rw [List.mem_append,ih,List.exists_mem_cons_iff]

lemma value_all (fs : List (Formula α)) : (all fs).value v = Truth.conj (fs.map (value v)) := by
  induction fs with
  | nil => rfl
  | cons f fs ih =>
    change (f.value v).min ((all fs).value v) = _
    rw [ih,List.map_cons,Truth.conj_cons]

lemma value_any (fs : List (Formula α)) : (any fs).value v = Truth.disj (fs.map (value v)) := by
  induction fs with
  | nil => rfl
  | cons f fs ih =>
    change (f.value v).max ((any fs).value v) = _
    rw [ih,List.map_cons,Truth.disj_cons]

end Formula
end ThreeValued
