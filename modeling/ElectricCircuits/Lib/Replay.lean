import Mathlib.Data.List.Pairwise
import Mathlib.Data.Set.Basic
import Mathlib.Order.Basic

/-! Replay of an at-least-once log behind a high-water mark. Items carry positions in a linear order;
an item at or below the mark is skipped, every other one is taken and raises the mark. -/
namespace Replay
variable {ε P : Type*} [LinearOrder P]

/-- A position that the mark does not cover. -/
def Above : Option P → P → Prop
  | none,_ => True
  | some h,p => h < p

instance (mark : Option P) (p : P) : Decidable (Above mark p) :=
  match mark with
  | none => inferInstanceAs (Decidable True)
  | some h => inferInstanceAs (Decidable (h < p))

@[simp] lemma above_none (p : P) : Above none p := trivial
@[simp] lemma above_some (h p : P) : Above (some h) p ↔ h < p := Iff.rfl

lemma Above.mono {mark : Option P} {p q : P} (h : Above mark p) (hpq : p ≤ q) : Above mark q := by
  cases mark with
  | none => trivial
  | some m => exact lt_of_lt_of_le h hpq

lemma Above.of_raise {mark : Option P} {p q : P} (hp : Above mark p) (hq : Above (some p) q) :
    Above mark q := hp.mono (le_of_lt hq)

/-- Skip what the mark covers and take the rest, an item without a position always: the mark at the
end, and the items taken. -/
def dedup (pos : ε → Option P) (mark : Option P) : List ε → Option P × List ε
  | [] => (mark,[])
  | e :: es =>
    match pos e with
    | some p =>
      if Above mark p then
        ((dedup pos (some p) es).1,e :: (dedup pos (some p) es).2)
      else dedup pos mark es
    | none => ((dedup pos mark es).1,e :: (dedup pos mark es).2)

section
variable {pos : ε → Option P} {mark : Option P}

@[simp] lemma dedup_nil : dedup pos mark [] = (mark,[]) := rfl

lemma dedup_skip {e : ε} {p : P} (es : List ε) (hp : pos e = some p) (h : ¬Above mark p) :
    dedup pos mark (e :: es) = dedup pos mark es := by
  simp [dedup,hp,h]

lemma dedup_take {e : ε} {p : P} (es : List ε) (hp : pos e = some p) (h : Above mark p) :
    dedup pos mark (e :: es) =
      ((dedup pos (some p) es).1,e :: (dedup pos (some p) es).2) := by
  simp [dedup,hp,h]

lemma dedup_append (xs ys : List ε) :
    dedup pos mark (xs ++ ys) =
      ((dedup pos (dedup pos mark xs).1 ys).1,
        (dedup pos mark xs).2 ++ (dedup pos (dedup pos mark xs).1 ys).2) := by
  induction xs generalizing mark with
  | nil => rfl
  | cons e es ih =>
    rw [List.cons_append,dedup,dedup]
    cases pos e with
    | none => simp [ih]
    | some p => by_cases h : Above mark p <;> simp [h,ih]

lemma dedup_subset (xs : List ε) : (dedup pos mark xs).2 ⊆ xs := by
  induction xs generalizing mark with
  | nil => simp
  | cons e es ih =>
    rw [dedup]
    cases pos e with
    | none => exact List.cons_subset_cons e ih
    | some p =>
      by_cases h : Above mark p
      · simpa [h] using List.cons_subset_cons e ih
      · simpa [h] using List.subset_cons_of_subset e ih

end

/-- Every position of `Z` above the mark still lies ahead, with nothing higher in front of it. -/
def Ahead (pos : ε → Option P) (Z : Set P) (mark : Option P) (X : List ε) : Prop :=
  ∀ z ∈ Z, Above mark z → ∃ B e C, X = B ++ e :: C ∧ pos e = some z ∧
    ∀ b ∈ B, ∀ p ∈ pos b, p ≤ z

/-- The positions taken so far: in order, none above the mark, and all of `Z` that the mark covers. -/
structure Taken (Z : Set P) (mark : Option P) (done : List P) : Prop where
  sorted : done.Pairwise (· < ·)
  covered : ∀ p ∈ done, ¬Above mark p
  complete : ∀ z ∈ Z, ¬Above mark z → z ∈ done

lemma Taken.nil (Z : Set P) : Taken Z none [] where
  sorted := List.Pairwise.nil
  covered := by simp
  complete := by simp

/-- Under a lower mark, what it covers of the positions taken. -/
lemma Taken.lower {Z : Set P} {mark mark' : Option P} {done : List P} (h : Taken Z mark done)
    (hm : ∀ z, Above mark z → Above mark' z) : Taken Z mark' (done.filter (¬Above mark' ·)) where
  sorted := h.sorted.filter _
  covered := fun p hp => by simpa using (List.mem_filter.mp hp).2
  complete := fun z hz hn =>
    List.mem_filter.mpr ⟨h.complete z hz (mt (hm z) hn),by simpa using hn⟩

section
variable {pos : ε → Option P} {Z : Set P} {mark : Option P}

lemma Ahead.mono {mark' : Option P} {X : List ε} (h : Ahead pos Z mark X)
    (hm : ∀ z, Above mark' z → Above mark z) : Ahead pos Z mark' X :=
  fun z hz ha => h z hz (hm z ha)

lemma Ahead.skip {e : ε} {p : P} {X : List ε} (h : Ahead pos Z mark (e :: X)) (hp : pos e = some p)
    (hs : ¬Above mark p) : Ahead pos Z mark X := by
  intro z hz ha
  obtain ⟨B,e',C,hX,he,hB⟩ := h z hz ha
  cases B with
  | nil =>
    obtain ⟨rfl,rfl⟩ := List.cons.inj hX
    obtain rfl := Option.some.inj (hp.symm.trans he)
    exact absurd ha hs
  | cons b B =>
    obtain ⟨rfl,rfl⟩ := List.cons.inj hX
    exact ⟨B,e',C,rfl,he,fun c hc => hB c (List.mem_cons_of_mem _ hc)⟩

lemma Ahead.take {e : ε} {p : P} {X : List ε} (h : Ahead pos Z mark (e :: X)) (hp : pos e = some p)
    (hs : Above mark p) : Ahead pos Z (some p) X := by
  intro z hz ha
  obtain ⟨B,e',C,hX,he,hB⟩ := h z hz (hs.of_raise ha)
  cases B with
  | nil =>
    obtain ⟨rfl,rfl⟩ := List.cons.inj hX
    obtain rfl := Option.some.inj (hp.symm.trans he)
    exact absurd ha (lt_irrefl p)
  | cons b B =>
    obtain ⟨rfl,rfl⟩ := List.cons.inj hX
    exact ⟨B,e',C,rfl,he,fun c hc => hB c (List.mem_cons_of_mem _ hc)⟩

/-- The head of what is ahead skips nothing. -/
lemma Ahead.head_le {e : ε} {p z : P} {X : List ε} (h : Ahead pos Z mark (e :: X))
    (hp : pos e = some p) (hz : z ∈ Z) (ha : Above mark z) : p ≤ z := by
  obtain ⟨B,e',C,hX,he,hB⟩ := h z hz ha
  cases B with
  | nil =>
    obtain ⟨rfl,rfl⟩ := List.cons.inj hX
    exact (Option.some.inj (hp.symm.trans he)).le
  | cons b B =>
    obtain ⟨rfl,rfl⟩ := List.cons.inj hX
    exact hB e List.mem_cons_self p hp

lemma Taken.snoc {e : ε} {p : P} {X : List ε} {done : List P} (h : Taken Z mark done)
    (ha : Ahead pos Z mark (e :: X)) (hp : pos e = some p) (hs : Above mark p) :
    Taken Z (some p) (done ++ [p]) where
  sorted := by
    refine List.pairwise_append.mpr ⟨h.sorted,List.pairwise_singleton _ _,?_⟩
    intro q hq r hr
    obtain rfl := List.mem_singleton.mp hr
    by_contra hn
    exact h.covered q hq (hs.mono (not_lt.mp hn))
  covered := by
    intro q hq
    rcases List.mem_append.mp hq with hq | hq
    · exact fun hqp => h.covered q hq (hs.of_raise hqp)
    · obtain rfl := List.mem_singleton.mp hq
      exact lt_irrefl q
  complete := by
    intro z hz hn
    by_cases hm : Above mark z
    · have hpz : p ≤ z := ha.head_le hp hz hm
      have hzp : z = p := le_antisymm (not_lt.mp hn) hpz
      simp [hzp]
    · exact List.mem_append_left _ (h.complete z hz hm)

/-- Replaying a stamped stretch keeps what is ahead ahead, and takes in order all that it passes. -/
theorem dedup_spec {X Y : List ε} {done : List P} (hX : ∀ e ∈ X, ∃ p, pos e = some p)
    (ha : Ahead pos Z mark (X ++ Y)) (hd : Taken Z mark done) :
    Ahead pos Z (dedup pos mark X).1 Y ∧
      Taken Z (dedup pos mark X).1 (done ++ (dedup pos mark X).2.filterMap pos) := by
  induction X generalizing mark done with
  | nil => simpa using ⟨ha,hd⟩
  | cons e X ih =>
    obtain ⟨p,hp⟩ := hX e List.mem_cons_self
    have hX' := fun x hx => hX x (List.mem_cons_of_mem e hx)
    by_cases hs : Above mark p
    · rw [dedup_take X hp hs]
      simpa [hp] using ih hX' (ha.take hp hs) (hd.snoc ha hp hs)
    · rw [dedup_skip X hp hs]
      exact ih hX' (ha.skip hp hs) hd

/-- A stretch that the mark covers is skipped. -/
lemma dedup_covered {X : List ε} (hX : ∀ e ∈ X, ∃ p, pos e = some p ∧ ¬Above mark p) :
    dedup pos mark X = (mark,[]) := by
  induction X with
  | nil => rfl
  | cons e X ih =>
    obtain ⟨p,hp,hs⟩ := hX e List.mem_cons_self
    rw [dedup_skip X hp hs]
    exact ih fun x hx => hX x (List.mem_cons_of_mem e hx)

/-- The mark is where the last item taken stands. -/
lemma dedup_mark (X : List ε) :
    (dedup pos mark X).1 = (((dedup pos mark X).2.filterMap pos).getLast?).or mark := by
  induction X generalizing mark with
  | nil => simp
  | cons e X ih =>
    rw [dedup]
    cases hp : pos e with
    | none => simpa [hp] using ih
    | some p =>
      by_cases hs : Above mark p
      · simp only [hs,if_true,List.filterMap_cons,hp]
        rw [ih]
        cases hl : ((dedup pos (some p) X).2.filterMap pos).getLast? <;>
          simp [List.getLast?_cons,hl]
      · simpa [hs] using ih

/-- The mark only rises. -/
lemma dedup_mark_mono {X : List ε} {z : P} (h : Above (dedup pos mark X).1 z) : Above mark z := by
  induction X generalizing mark with
  | nil => exact h
  | cons e X ih =>
    rw [dedup] at h
    cases hp : pos e with
    | none => exact ih (by simpa [hp] using h)
    | some p =>
      by_cases hs : Above mark p
      · exact hs.of_raise (ih (by simpa [hp,hs] using h))
      · exact ih (by simpa [hp,hs] using h)

/-- What is replayed ends up at or below the mark. -/
lemma not_above_of_mem {X : List ε} {e : ε} {p : P} (he : e ∈ X) (hp : pos e = some p) :
    ¬Above (dedup pos mark X).1 p := by
  induction X generalizing mark with
  | nil => cases he
  | cons x X ih =>
    rcases List.mem_cons.mp he with rfl | he
    · by_cases hs : Above mark p
      · rw [dedup_take X hp hs]
        exact fun h => lt_irrefl p (dedup_mark_mono h)
      · rw [dedup_skip X hp hs]
        exact fun h => hs (dedup_mark_mono h)
    · rw [dedup]
      cases pos x with
      | none => exact ih he
      | some q => by_cases hs : Above mark q <;> simpa [hs] using ih he

/-- Of two stretches in a row, the first or the second holds an item that splits the whole. -/
lemma split_append {X Y B C : List ε} {e : ε} (h : X ++ Y = B ++ e :: C) :
    (∃ X', X = B ++ e :: X' ∧ C = X' ++ Y) ∨ ∃ B', B = X ++ B' ∧ Y = B' ++ e :: C := by
  rcases List.append_eq_append_iff.mp h with ⟨B',hB,hY⟩ | ⟨X',hX,hC⟩
  · exact .inr ⟨B',hB,hY⟩
  · cases X' with
    | nil => exact .inr ⟨[],by simpa using hX.symm,by simpa using hC.symm⟩
    | cons x X' =>
      obtain ⟨rfl,rfl⟩ := List.cons.inj hC
      exact .inl ⟨X',hX,rfl⟩

/-- Behind a stretch that ends at `w`, items at or below `w` may be dropped. -/
theorem Ahead.filter {H X R : List ε} {x : ε} {w : P} {q : ε → Bool} (hx : x ∈ H.getLast?)
    (hw : pos x = some w) (hq : ∀ e ∈ X, q e = false → ∀ p ∈ pos e, p ≤ w)
    (ha : Ahead pos Z mark (H ++ (X ++ R))) : Ahead pos Z mark (H ++ (X.filter q ++ R)) := by
  intro z hz hm
  obtain ⟨B,e,C,hsplit,he,hB⟩ := ha z hz hm
  obtain ⟨H',rfl⟩ : ∃ H', H = H' ++ [x] := List.getLast?_eq_some_iff.mp hx
  rcases split_append hsplit with ⟨H1,hH,rfl⟩ | ⟨B',rfl,hXR⟩
  · exact ⟨B,e,H1 ++ (X.filter q ++ R),by rw [hH]; simp,he,hB⟩
  · have hwz : w ≤ z := hB x (by simp) w hw
    rcases hwz.eq_or_lt with rfl | hlt
    · exact ⟨H',x,X.filter q ++ R,by simp,hw,fun b hb => hB b (by simp [hb])⟩
    · rcases split_append hXR with ⟨X',rfl,rfl⟩ | ⟨B'',rfl,rfl⟩
      · have hqe : q e = true := by
          by_contra hn
          exact (hq e (by simp) (by simpa using hn) z he).not_gt hlt
        refine ⟨H' ++ [x] ++ B'.filter q,e,X'.filter q ++ R,by simp [hqe],he,?_⟩
        intro b hb
        rcases List.mem_append.mp hb with hb | hb
        · exact hB b (List.mem_append_left _ hb)
        · exact hB b (List.mem_append_right _ ((List.mem_filter.mp hb).1))
      · refine ⟨H' ++ [x] ++ (X.filter q ++ B''),e,C,by simp,he,?_⟩
        intro b hb
        rcases List.mem_append.mp hb with hb | hb
        · exact hB b (List.mem_append_left _ hb)
        · rcases List.mem_append.mp hb with hb | hb
          · exact hB b (by simp [(List.mem_filter.mp hb).1])
          · exact hB b (by simp [hb])

/-- A covered stretch may be left out. -/
theorem Ahead.drop_covered {X Y : List ε} (h : Ahead pos Z mark (X ++ Y))
    (hX : ∀ e ∈ X, ∀ p ∈ pos e, ¬Above mark p) : Ahead pos Z mark Y := by
  intro z hz hm
  obtain ⟨B,e,C,hsplit,he,hB⟩ := h z hz hm
  rcases split_append hsplit with ⟨X',rfl,rfl⟩ | ⟨B',rfl,rfl⟩
  · exact absurd hm (hX e (by simp) z he)
  · exact ⟨B',e,C,rfl,he,fun b hb => hB b (List.mem_append_right _ hb)⟩

end
end Replay
