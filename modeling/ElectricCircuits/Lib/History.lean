import Mathlib.Data.Finset.Basic
import Mathlib.Data.Finset.Option
import Mathlib.Data.Set.Function

/-! Histories of changes to the rows of a keyed table, and the maps by name that follow one. -/

/-- A change takes out its old image and puts in its new one. -/
structure RowChange (α : Type*) where
  old : Option α
  new : Option α

namespace RowChange
variable {α κ : Type*} [DecidableEq α] (key : α → κ)

def apply (t : Finset α) (c : RowChange α) : Finset α := (t \ c.old.toFinset) ∪ c.new.toFinset

@[simp] lemma mem_apply {t : Finset α} {c : RowChange α} {r : α} :
    r ∈ c.apply t ↔ r ∈ t ∧ r ∉ c.old ∨ r ∈ c.new := by
  simp [apply]

/-- The old image is in the table, and the key of the new one is free once it is out. -/
structure Fits (t : Finset α) (c : RowChange α) : Prop where
  held : ∀ o ∈ c.old, o ∈ t
  free : ∀ n ∈ c.new, ∀ r ∈ t, key r = key n → r ∈ c.old

instance [DecidableEq κ] (t : Finset α) (c : RowChange α) : Decidable (c.Fits key t) :=
  decidable_of_iff
    ((∀ o ∈ c.old, o ∈ t) ∧ ∀ n ∈ c.new, ∀ r ∈ t, key r = key n → r ∈ c.old)
    ⟨fun h => ⟨h.1,h.2⟩,fun h => ⟨h.held,h.free⟩⟩

/-- A change concerns the keys of its images. -/
def Touches (c : RowChange α) (k : κ) : Prop := ∃ r, (r ∈ c.old ∨ r ∈ c.new) ∧ key r = k

/-- Two changes that concern no common key. -/
def Independent (c d : RowChange α) : Prop := ∀ k, c.Touches key k → ¬d.Touches key k

variable {key}

lemma Fits.injOn {t : Finset α} {c : RowChange α} (h : c.Fits key t) (ht : Set.InjOn key t) :
    Set.InjOn key (c.apply t) := by
  intro r hr r' hr' heq
  rw [Finset.mem_coe,mem_apply] at hr hr'
  rcases hr with ⟨hr,hro⟩ | hr
  · rcases hr' with ⟨hr',-⟩ | hr'
    · exact ht hr hr' heq
    · exact absurd (h.free r' hr' r hr heq) hro
  · rcases hr' with ⟨hr',hro'⟩ | hr'
    · exact absurd (h.free r hr r' hr' heq.symm) hro'
    · exact Option.mem_unique hr hr'

/-- How a change moves the number of rows that pass a test. -/
lemma Fits.card_filter {t : Finset α} {c : RowChange α} (h : c.Fits key t) (q : α → Bool) :
    (((c.apply t).filter (q ·)).card : ℤ) =
      (t.filter (q ·)).card+(c.new.toFinset.filter (q ·)).card-(c.old.toFinset.filter (q ·)).card := by
  have hdisjoint : Disjoint (t \ c.old.toFinset) c.new.toFinset := by
    rw [Finset.disjoint_right]
    intro n hn ht
    rw [Finset.mem_sdiff,Option.mem_toFinset] at ht
    exact ht.2 (h.free n (Option.mem_toFinset.mp hn) n ht.1 rfl)
  have hsubset : c.old.toFinset ⊆ t := fun o ho => h.held o (Option.mem_toFinset.mp ho)
  have hkept : (t \ c.old.toFinset).filter (q ·) = t.filter (q ·) \ c.old.toFinset.filter (q ·) := by
    ext r
    simp only [Finset.mem_filter,Finset.mem_sdiff]
    tauto
  rw [apply,Finset.filter_union,Finset.card_union_of_disjoint (Finset.disjoint_filter_filter hdisjoint),
    hkept,Finset.card_sdiff_of_subset (Finset.filter_subset_filter _ hsubset)]
  have hle := Finset.card_le_card (Finset.filter_subset_filter (q · = true) hsubset)
  omega

omit [DecidableEq α] in
lemma Independent.symm {c d : RowChange α} (h : Independent key c d) : Independent key d c :=
  fun k hd hc => h k hc hd

omit [DecidableEq α] in
lemma Independent.ne {c d : RowChange α} (h : Independent key c d) {r r' : α}
    (hr : r ∈ c.old ∨ r ∈ c.new) (hr' : r' ∈ d.old ∨ r' ∈ d.new) : key r ≠ key r' :=
  fun heq => h (key r) ⟨r,hr,rfl⟩ ⟨r',hr',heq.symm⟩

/-- Independent changes can change places. -/
lemma Independent.apply_comm {c d : RowChange α} (h : Independent key c d) (t : Finset α) :
    d.apply (c.apply t) = c.apply (d.apply t) := by
  ext r
  have hold : r ∈ c.new → r ∉ d.old := fun hc hd => h.ne (.inr hc) (.inl hd) rfl
  have hold' : r ∈ d.new → r ∉ c.old := fun hd hc => h.ne (.inl hc) (.inr hd) rfl
  simp only [mem_apply]
  tauto

/-- What fits after an independent change fits before it. -/
lemma Independent.fits_before {c d : RowChange α} (h : Independent key c d) {t : Finset α}
    (hd : d.Fits key (c.apply t)) : d.Fits key t where
  held o ho := by
    rcases mem_apply.mp (hd.held o ho) with ⟨ht,-⟩ | hc
    · exact ht
    · exact absurd rfl (h.ne (.inr hc) (.inl ho))
  free n hn r hr heq := by
    by_cases hc : r ∈ c.old
    · exact absurd heq (h.ne (.inl hc) (.inr hn))
    · exact hd.free n hn r (mem_apply.mpr (.inl ⟨hr,hc⟩)) heq

/-- What fits before an independent change fits after it. -/
lemma Independent.fits_after {c d : RowChange α} (h : Independent key c d) {t : Finset α}
    (hc : c.Fits key t) : c.Fits key (d.apply t) where
  held o ho := by
    refine mem_apply.mpr (.inl ⟨hc.held o ho,fun hd => ?_⟩)
    exact h.ne (.inl ho) (.inl hd) rfl
  free n hn r hr heq := by
    rcases mem_apply.mp hr with ⟨hr,-⟩ | hd
    · exact hc.free n hn r hr heq
    · exact absurd heq (h.ne (.inr hn) (.inr hd)).symm

end RowChange

namespace History
variable {ε α κ : Type*} [DecidableEq α] (key : α → κ) (change : ε → RowChange α)

/-- The table after a history of events that carry changes. -/
def after (t : Finset α) : List ε → Finset α
  | [] => t
  | e :: es => after ((change e).apply t) es

/-- Every change fits where it comes. -/
def Runs (t : Finset α) : List ε → Prop
  | [] => True
  | e :: es => (change e).Fits key t ∧ Runs ((change e).apply t) es

instance decidableRuns [DecidableEq κ] : ∀ (t : Finset α) (es : List ε),
    Decidable (Runs key change t es)
  | _,[] => .isTrue trivial
  | t,e :: es => @instDecidableAnd _ _ _ (decidableRuns ((change e).apply t) es)

variable {change}

lemma after_append (t : Finset α) (es es' : List ε) :
    after change t (es ++ es') = after change (after change t es) es' := by
  induction es generalizing t with
  | nil => rfl
  | cons e es ih => exact ih _

variable {key}

lemma runs_append {t : Finset α} {es es' : List ε} :
    Runs key change t (es ++ es') ↔
      Runs key change t es ∧ Runs key change (after change t es) es' := by
  induction es generalizing t with
  | nil => exact (true_and _).symm.to_iff
  | cons e es ih =>
    rw [List.cons_append,Runs,ih,Runs,and_assoc]
    rfl

lemma Runs.injOn {t : Finset α} {es : List ε} (h : Runs key change t es) (ht : Set.InjOn key t) :
    Set.InjOn key (after change t es) := by
  induction es generalizing t with
  | nil => exact ht
  | cons e es ih => exact ih h.2 (h.1.injOn ht)

/-- An event moves behind events that are independent of it. -/
lemma runs_move {t : Finset α} {e : ε} {es : List ε}
    (hind : ∀ d ∈ es, (change e).Independent key (change d))
    (he : (change e).Fits key t) (hes : Runs key change ((change e).apply t) es) :
    Runs key change t es ∧ (change e).Fits key (after change t es) ∧
      (change e).apply (after change t es) = after change ((change e).apply t) es := by
  induction es generalizing t with
  | nil => exact ⟨trivial,he,rfl⟩
  | cons d es ih =>
    obtain ⟨hd,hrest⟩ := List.forall_mem_cons.mp hind
    have hcomm := hd.apply_comm t
    obtain ⟨hruns,hfits,heq⟩ := ih hrest (hd.fits_after he) (hcomm ▸ hes.2)
    exact ⟨⟨hd.fits_before hes.1,hruns⟩,hfits,by rw [after,heq,after,hcomm]⟩

/-- A part of a history that is closed under what comes before it on the same keys can be taken first. -/
theorem runs_partition (first : ε → Bool) {t : Finset α} {es : List ε}
    (hclosed : es.Pairwise fun d e =>
      first e = true → first d = false → (change d).Independent key (change e))
    (h : Runs key change t es) :
    Runs key change t (es.filter first ++ es.filter (!first ·)) ∧
      after change t (es.filter first ++ es.filter (!first ·)) = after change t es := by
  induction es generalizing t with
  | nil => exact ⟨trivial,rfl⟩
  | cons e es ih =>
    obtain ⟨he,hes⟩ := List.pairwise_cons.mp hclosed
    obtain ⟨hruns,heq⟩ := ih hes h.2
    cases hfirst : first e with
    | true =>
      simp only [List.filter_cons,hfirst,if_true,Bool.not_true,Bool.false_eq_true,if_false]
      exact ⟨⟨h.1,hruns⟩,heq⟩
    | false =>
      simp only [List.filter_cons,hfirst,if_true,Bool.not_false,Bool.false_eq_true,if_false]
      obtain ⟨hfront,hback⟩ := runs_append.mp hruns
      obtain ⟨hfront',hfits,hmove⟩ := runs_move
        (fun d hd => he d (List.mem_filter.mp hd).1 (List.mem_filter.mp hd).2 hfirst) h.1 hfront
      rw [runs_append,after_append,Runs,after,hmove]
      refine ⟨⟨hfront',hfits,hback⟩,?_⟩
      rw [← after_append]
      exact heq

end History

section
variable {α κ ν β : Type*}

/-- A map from names to what a view shows of the rows of a table. -/
def Shows (name : α → ν) (view : α → Option β) (t : Finset α) (F : ν → Option β) : Prop :=
  ∀ k b, F k = some b ↔ ∃ r ∈ t, name r = k ∧ view r = some b

variable {key : α → κ} {name : α → ν} {view : α → Option β} {t : Finset α} {F : ν → Option β}

lemma Shows.of_mem (h : Shows name view t F)
    (hname : ∀ r ∈ t, ∀ r' ∈ t, name r = name r' → r = r') {r : α} (hr : r ∈ t) :
    F (name r) = view r := by
  refine Option.ext fun b => ?_
  rw [h]
  constructor
  · rintro ⟨r',hr',heq,hb⟩
    rwa [← hname r' hr' r hr heq]
  · exact fun hb => ⟨r,hr,rfl,hb⟩

/-- A map follows a change by what it does to the names of the two images. -/
theorem Shows.apply [DecidableEq α] {c : RowChange α} {F' : ν → Option β} (h : Shows name view t F)
    (hname : ∀ r ∈ c.apply t, ∀ n ∈ c.new, name r = name n → r = n)
    (hold : ∀ r ∈ t, ∀ o ∈ c.old, name r = name o → r = o)
    (hnew : ∀ n ∈ c.new, F' (name n) = view n)
    (hgone : ∀ o ∈ c.old, (∀ n ∈ c.new, name n ≠ name o) → F' (name o) = none)
    (hrest : ∀ k, (∀ n ∈ c.new, name n ≠ k) → (∀ o ∈ c.old, name o ≠ k) → F' k = F k) :
    Shows name view (c.apply t) F' := by
  intro k b
  by_cases hkn : ∃ n ∈ c.new, name n = k
  · obtain ⟨n,hn,rfl⟩ := hkn
    rw [hnew n hn]
    constructor
    · exact fun hb => ⟨n,RowChange.mem_apply.mpr (.inr hn),rfl,hb⟩
    · rintro ⟨r,hr,heq,hb⟩
      rwa [← hname r hr n hn heq]
  · have hkn' : ∀ n ∈ c.new, name n ≠ k := fun n hn heq => hkn ⟨n,hn,heq⟩
    by_cases hko : ∃ o ∈ c.old, name o = k
    · obtain ⟨o,ho,rfl⟩ := hko
      rw [hgone o ho hkn']
      refine ⟨nofun,?_⟩
      rintro ⟨r,hr,heq,-⟩
      rcases RowChange.mem_apply.mp hr with ⟨hr,hro⟩ | hr
      · exact absurd (hold r hr o ho heq ▸ ho) hro
      · exact absurd heq (hkn' r hr)
    · have hko' : ∀ o ∈ c.old, name o ≠ k := fun o ho heq => hko ⟨o,ho,heq⟩
      rw [hrest k hkn' hko',h]
      refine exists_congr fun r => ⟨?_,?_⟩
      · rintro ⟨hr,rfl,hb⟩
        exact ⟨RowChange.mem_apply.mpr (.inl ⟨hr,fun ho => hko' r ho rfl⟩),rfl,hb⟩
      · rintro ⟨hr,rfl,hb⟩
        rcases RowChange.mem_apply.mp hr with ⟨hr,-⟩ | hr
        · exact ⟨hr,rfl,hb⟩
        · exact absurd rfl (hkn' r hr)

end
