import Mathlib.Data.List.Basic
import Mathlib.Logic.Relation
import Mathlib.Order.Lattice

/-! A display that follows the versions of a value. Decisions are made version by version as an
environment says; reads come late, behind the decisions or ahead of them, and a change of the environment
leaves work that reads again. A read finds what its work asks for, and may find more. -/
namespace LateReads

/-- The versions of a value, what an environment shows of one, and which of them a piece of work asks for. -/
structure Source (ε ρ β ω : Type*) where
  image : ℕ → Option ρ
  view : ε → ρ → Option β
  asks : ω → ρ → Bool

/-- What is shown, the versions committed and decided so far, the work to be done and the reads under way, each
with the version that it read and whether it found it, and the version of the last decision made under a read. -/
structure Display (ε β ω : Type*) where
  env : ε
  committed : ℕ
  decided : ℕ
  shown : Option β
  work : List ω
  reads : List (ω × Option (ℕ × Bool))
  recent : Option ℕ

variable {ε ρ β ω : Type*} (S : Source ε ρ β ω)

namespace Source

def shows (e : ε) (n : ℕ) : Option β := (S.image n).bind (S.view e)

/-- No environment shows any of the versions from `m` to `n`. -/
def Blank (m n : ℕ) : Prop := ∀ i, m ≤ i → i ≤ n → ∀ e, S.shows e i = none

variable {S}

lemma Blank.succ {m n : ℕ} (h : S.Blank m n) (hnext : ∀ e, S.shows e (n+1) = none) : S.Blank m (n+1) := by
  intro i hmi hin e
  rcases Nat.lt_or_ge n i with hlt | hge
  · obtain rfl : i = n+1 := by omega
    exact hnext e
  · exact h i hmi hge e

end Source

namespace Display

/-- The version of the last decision goes when no read is under way. -/
def close (s : Display ε β ω) (reads : List (ω × Option (ℕ × Bool))) : Display ε β ω :=
  { s with reads := reads, recent := if reads.isEmpty then none else s.recent }

/-- A read lands: it is dropped when a decision was made on a later version under it, and otherwise shows
the version that it read, if it found it. -/
def landed (s : Display ε β ω) (m : ℕ) (found : Bool) : Option β :=
  if s.recent.any (m < ·) then s.shown else if found then S.shows s.env m else s.shown

end Display

inductive Step : Display ε β ω → Display ε β ω → Prop
  | commit (s : Display ε β ω) : Step s { s with committed := s.committed+1 }
  | decide (s : Display ε β ω) (h : s.decided < s.committed) :
    Step s { s with
      decided := s.decided+1
      shown := S.shows s.env (s.decided+1)
      recent := if s.reads.isEmpty then s.recent else some (s.decided+1) }
  | pass (s : Display ε β ω) (h : s.decided < s.committed)
    (hblank : S.Blank s.decided (s.decided+1)) : Step s { s with decided := s.decided+1 }
  | turn (s : Display ε β ω) (e : ε) (ws : List ω)
    (hkept : ∀ w ∈ s.work, ∀ r, S.asks w r = true → ∃ w' ∈ ws, S.asks w' r = true)
    (h : ∀ r, S.view s.env r ≠ S.view e r → ∃ w ∈ ws, S.asks w r = true) :
    Step s { s with env := e, work := ws }
  | begin (s : Display ε β ω) (w : ω) (ws ws' : List ω) (rs rs' : List (ω × Option (ℕ × Bool)))
    (h : s.work = ws ++ w :: ws') (hreads : s.reads = rs ++ rs') :
    Step s { s with work := ws ++ ws', reads := rs ++ (w,none) :: rs' }
  | read (s : Display ε β ω) (w : ω) (m : ℕ) (found : Bool) (rs rs' : List (ω × Option (ℕ × Bool)))
    (h : s.reads = rs ++ (w,none) :: rs') (hle : s.decided ≤ m) (hcommitted : m ≤ s.committed)
    (hfound : ∀ r, S.image m = some r → S.asks w r = true → found = true) :
    Step s { s with reads := rs ++ (w,some (m,found)) :: rs' }
  | fail (s : Display ε β ω) (w : ω) (n : Option (ℕ × Bool)) (rs rs' : List (ω × Option (ℕ × Bool)))
    (h : s.reads = rs ++ (w,n) :: rs') :
    Step s { s.close (rs ++ rs') with work := w :: s.work }
  | land (s : Display ε β ω) (w : ω) (m : ℕ) (found : Bool) (rs rs' : List (ω × Option (ℕ × Bool)))
    (h : s.reads = rs ++ (w,some (m,found)) :: rs') :
    Step s { s.close (rs ++ rs') with shown := s.landed S m found }

namespace Display

/-- Work that is still to be done, or whose read no decision can drop any more. -/
def Open (s : Display ε β ω) (w : ω) : Prop :=
  w ∈ s.work ∨ (w,none) ∈ s.reads ∨ ∃ m found, (w,some (m,found)) ∈ s.reads ∧ ∀ n ∈ s.recent, n ≤ m

/-- The display is that of the version decided last; or it was, and open work asks for that version; or
it is that of some version from there on, and there are versions to decide. -/
inductive Settled (s : Display ε β ω) : Prop where
  | now (h : s.shown = S.shows s.env s.decided)
  | owed (e : ε) (w : ω) (r : ρ) (hshown : s.shown = S.shows e s.decided) (hr : S.image s.decided = some r)
    (hasks : S.asks w r = true) (hopen : s.Open w)
  | behind (e : ε) (m : ℕ) (hlt : s.decided < s.committed) (hm : s.decided ≤ m)
    (hcommitted : m ≤ s.committed) (hshown : s.shown = S.shows e m)

/-- What holds of a display at any time. -/
structure Sound (s : Display ε β ω) : Prop where
  le : s.decided ≤ s.committed
  idle : s.reads = [] → s.recent = none
  recent_le : ∀ n ∈ s.recent, n ≤ s.decided
  read_le : ∀ w m found, (w,some (m,found)) ∈ s.reads → m ≤ s.committed
  found : ∀ w m found, (w,some (m,found)) ∈ s.reads → ∀ r, S.image m = some r → S.asks w r = true → found = true
  late : ∀ w m found, (w,some (m,found)) ∈ s.reads →
    s.decided ≤ m ∨ (∃ n ∈ s.recent, m < n) ∨ S.Blank m s.decided
  settled : s.Settled S

variable {S} {s t : Display ε β ω}

@[simp] lemma close_reads (s : Display ε β ω) (reads : List (ω × Option (ℕ × Bool))) :
    (s.close reads).reads = reads := rfl

/-- A read is dropped under a later decision, and else shows what it read or found nothing. -/
lemma landed_cases (s : Display ε β ω) (m : ℕ) (found : Bool) :
    (∃ d ∈ s.recent, m < d) ∧ s.landed S m found = s.shown ∨
    (∀ d ∈ s.recent, d ≤ m) ∧ (s.landed S m found = S.shows s.env m ∨
      s.landed S m found = s.shown ∧ found = false) := by
  rw [landed]
  cases hrecent : s.recent with
  | none => cases found <;> simp
  | some d =>
    by_cases hlt : m < d
    · simp [hlt]
    · cases found <;> simp [hlt,Nat.not_lt.mp hlt]

/-- What is left of the version of the last decision is that version. -/
lemma mem_close_recent {reads : List (ω × Option (ℕ × Bool))} {n : ℕ} (h : n ∈ (s.close reads).recent) :
    n ∈ s.recent := by
  rw [close] at h
  split_ifs at h
  · cases h
  · exact h

/-- The reads that are left were under way. -/
lemma mem_reads {x v : ω × Option (ℕ × Bool)} {rs rs' : List (ω × Option (ℕ × Bool))}
    (hreads : s.reads = rs ++ v :: rs')
    (h : x ∈ rs ++ rs') : x ∈ s.reads := by
  rw [hreads]
  exact ((List.sublist_cons_self v rs').append_left rs).subset h

/-- Open work is that of the read in question, or stays open without it. -/
lemma Open.cases {w v : ω} {n : Option (ℕ × Bool)} {rs rs' : List (ω × Option (ℕ × Bool))} (h : s.Open w)
    (hreads : s.reads = rs ++ (v,n) :: rs') : (s.close (rs ++ rs')).Open w ∨
      w = v ∧ ∀ m ∈ n, ∀ d ∈ s.recent, d ≤ m.1 := by
  have hmem : ∀ x, x ∈ s.reads → x ∈ rs ++ rs' ∨ x = (v,n) := by
    intro x hx
    rw [hreads,List.mem_append,List.mem_cons] at hx
    rw [List.mem_append]
    tauto
  rcases h with hw | hw | ⟨m,found,hm,hle⟩
  · exact .inl (.inl hw)
  · rcases hmem _ hw with hw | hw
    · exact .inl (.inr (.inl hw))
    · obtain ⟨rfl,rfl⟩ := Prod.mk.inj hw
      exact .inr ⟨rfl,nofun⟩
  · rcases hmem _ hm with hm | hm
    · exact .inl (.inr (.inr ⟨m,found,hm,fun n hn => hle n (mem_close_recent hn)⟩))
    · obtain ⟨rfl,rfl⟩ := Prod.mk.inj hm
      refine .inr ⟨rfl,fun m' hm' => ?_⟩
      obtain rfl := Option.some.inj hm'
      exact hle

namespace Sound

/-- What ends a read keeps of the state around it. -/
lemma close (h : s.Sound S) {v : ω} {n : Option (ℕ × Bool)} {rs rs' : List (ω × Option (ℕ × Bool))}
    (hreads : s.reads = rs ++ (v,n) :: rs') {work : List ω} {shown : Option β}
    (hsettled : Settled S { s.close (rs ++ rs') with work := work, shown := shown }) :
    Sound S { s.close (rs ++ rs') with work := work, shown := shown } where
  le := h.le
  idle hr := by
    have hr : rs ++ rs' = [] := hr
    simp [Display.close,hr]
  recent_le n hn := h.recent_le n (mem_close_recent hn)
  read_le w m found hm := h.read_le w m found (mem_reads hreads hm)
  found w m found hm := h.found w m found (mem_reads hreads hm)
  late w m found hm := by
    rcases h.late w m found (mem_reads hreads hm) with hle | ⟨d,hd,hlt⟩ | hblank
    · exact .inl hle
    · refine .inr (.inl ⟨d,?_,hlt⟩)
      have hne : (rs ++ rs').isEmpty = false := List.isEmpty_eq_false_iff.mpr (List.ne_nil_of_mem hm)
      simpa [Display.close,hne] using hd
    · exact .inr (.inr hblank)
  settled := hsettled

lemma commit (h : s.Sound S) : Sound S { s with committed := s.committed+1 } where
  le := Nat.le_succ_of_le h.le
  idle := h.idle
  recent_le := h.recent_le
  read_le w m found hm := Nat.le_succ_of_le (h.read_le w m found hm)
  found := h.found
  late := h.late
  settled := by
    cases h.settled with
    | now hs => exact .now hs
    | owed e w r hs hr hasks hopen => exact .owed e w r hs hr hasks hopen
    | behind e m hlt hm hc hs => exact .behind e m (Nat.lt_succ_of_lt hlt) hm (Nat.le_succ_of_le hc) hs

lemma decide (h : s.Sound S) (hlt : s.decided < s.committed) : Sound S { s with
    decided := s.decided+1
    shown := S.shows s.env (s.decided+1)
    recent := if s.reads.isEmpty then s.recent else some (s.decided+1) } where
  le := hlt
  idle hr := by
    have hr : s.reads = [] := hr
    simp [hr,h.idle hr]
  recent_le n hn := by
    change n ∈ (if s.reads.isEmpty then s.recent else some (s.decided+1)) at hn
    split_ifs at hn
    · exact Nat.le_succ_of_le (h.recent_le n hn)
    · exact (Option.some.inj hn).ge
  read_le := h.read_le
  found := h.found
  late w m found hm := by
    rcases Nat.lt_or_ge m (s.decided+1) with hlt | hge
    · have hne : s.reads.isEmpty = false := List.isEmpty_eq_false_iff.mpr (List.ne_nil_of_mem hm)
      exact .inr (.inl ⟨s.decided+1,by simp [hne],hlt⟩)
    · exact .inl hge
  settled := .now rfl

/-- A version that shows nothing in any environment, like the one before it, needs no decision. -/
lemma pass (h : s.Sound S) (hlt : s.decided < s.committed) (hblank : S.Blank s.decided (s.decided+1)) :
    Sound S { s with decided := s.decided+1 } where
  le := hlt
  idle := h.idle
  recent_le n hn := Nat.le_succ_of_le (h.recent_le n hn)
  read_le := h.read_le
  found := h.found
  late w m found hm := by
    have hnext : ∀ e, S.shows e (s.decided+1) = none := hblank _ (Nat.le_succ _) (Nat.le_refl _)
    rcases h.late w m found hm with hle | hd | hb
    · rcases Nat.lt_or_ge s.decided m with hlt | hge
      · exact .inl hlt
      · obtain rfl : m = s.decided := Nat.le_antisymm hge hle
        exact .inr (.inr hblank)
    · exact .inr (.inl hd)
    · exact .inr (.inr (hb.succ hnext))
  settled := by
    have hnow : ∀ e, S.shows e s.decided = none := hblank _ (Nat.le_refl _) (Nat.le_succ _)
    have hnext : ∀ e, S.shows e (s.decided+1) = none := hblank _ (Nat.le_succ _) (Nat.le_refl _)
    cases h.settled with
    | now hs => exact .now (by rw [hs,hnow,hnext])
    | owed e w r hs hr hasks hopen => exact .now (by rw [hs,hnow,hnext])
    | behind e m hlt hm hc hs =>
      rcases Nat.lt_or_ge s.decided m with hm | hm'
      · rcases Nat.lt_or_ge (s.decided+1) m with hm' | hm'
        · exact .behind e m (hm'.trans_le hc) hm hc hs
        · obtain rfl : m = s.decided+1 := Nat.le_antisymm hm' hm
          exact .now (by rw [hs,hnext,hnext])
      · obtain rfl : m = s.decided := Nat.le_antisymm hm' hm
        exact .now (by rw [hs,hnow,hnext])

/-- The environment turns, and the work is laid out anew. -/
lemma turn (h : s.Sound S) (e : ε) (ws : List ω)
    (hkept : ∀ w ∈ s.work, ∀ r, S.asks w r = true → ∃ w' ∈ ws, S.asks w' r = true)
    (hws : ∀ r, S.view s.env r ≠ S.view e r → ∃ w ∈ ws, S.asks w r = true) :
    Sound S { s with env := e, work := ws } where
  le := h.le
  idle := h.idle
  recent_le := h.recent_le
  read_le := h.read_le
  found := h.found
  late := h.late
  settled := by
    cases h.settled with
    | now hs =>
      by_cases hsame : S.shows s.env s.decided = S.shows e s.decided
      · exact .now (hs.trans hsame)
      · -- the environment shows this version otherwise now, and some of the work asks for it
        obtain ⟨r,hr⟩ : ∃ r, S.image s.decided = some r := by
          rw [← Option.ne_none_iff_exists']
          intro hnone
          exact hsame (by simp [Source.shows,hnone])
        obtain ⟨w,hw,hasks⟩ := hws r fun heq => hsame (by simp [Source.shows,hr,heq])
        exact .owed s.env w r hs hr hasks (.inl hw)
    | owed e' w r hs hr hasks hopen =>
      rcases hopen with hw | hread
      · obtain ⟨w',hw',hasks'⟩ := hkept w hw r hasks
        exact .owed e' w' r hs hr hasks' (.inl hw')
      · exact .owed e' w r hs hr hasks (.inr hread)
    | behind e' m hlt hm hc hs => exact .behind e' m hlt hm hc hs

lemma begin (h : s.Sound S) {w : ω} {ws ws' : List ω} {rs rs' : List (ω × Option (ℕ × Bool))}
    (hwork : s.work = ws ++ w :: ws') (hreads : s.reads = rs ++ rs') :
    Sound S { s with work := ws ++ ws', reads := rs ++ (w,none) :: rs' } := by
  have hmem : ∀ x, x ∈ s.reads → x ∈ rs ++ (w,none) :: rs' := by
    intro x hx
    rw [hreads] at hx
    exact ((List.sublist_cons_self (w,none) rs').append_left rs).subset hx
  have hold : ∀ v m, (v,some m) ∈ rs ++ (w,none) :: rs' → (v,some m) ∈ s.reads := by
    intro v m hm
    rw [hreads]
    simpa using hm
  refine ⟨h.le,fun hr => by simp at hr,h.recent_le,fun v m found hm => h.read_le v m found (hold v _ hm),
    fun v m found hm => h.found v m found (hold v _ hm),fun v m found hm => h.late v m found (hold v _ hm),?_⟩
  cases h.settled with
  | now hs => exact .now hs
  | behind e m hlt hm hc hs => exact .behind e m hlt hm hc hs
  | owed e v r hs hr hasks hopen =>
    refine .owed e v r hs hr hasks ?_
    rcases hopen with hv | hv | ⟨m,found,hm,hle⟩
    · rw [hwork,List.mem_append,List.mem_cons] at hv
      rcases hv with hv | rfl | hv
      · exact .inl (List.mem_append_left _ hv)
      · exact .inr (.inl (List.mem_append_right _ List.mem_cons_self))
      · exact .inl (List.mem_append_right _ hv)
    · exact .inr (.inl (hmem _ hv))
    · exact .inr (.inr ⟨m,found,hmem _ hm,hle⟩)

lemma read (h : s.Sound S) {w : ω} {m : ℕ} {found : Bool} {rs rs' : List (ω × Option (ℕ × Bool))}
    (hreads : s.reads = rs ++ (w,none) :: rs') (hle : s.decided ≤ m) (hc : m ≤ s.committed)
    (hfound : ∀ r, S.image m = some r → S.asks w r = true → found = true) :
    Sound S { s with reads := rs ++ (w,some (m,found)) :: rs' } := by
  have hmem : ∀ v n f, (v,some (n,f)) ∈ rs ++ (w,some (m,found)) :: rs' →
      (v = w ∧ n = m ∧ f = found) ∨ (v,some (n,f)) ∈ s.reads := by
    intro v n f hn
    rw [List.mem_append,List.mem_cons,← or_assoc,or_right_comm,or_comm] at hn
    rcases hn with heq | hn
    · exact .inl (by simpa using heq)
    · exact .inr (mem_reads hreads (List.mem_append.mpr hn))
  refine ⟨h.le,fun hr => by simp at hr,h.recent_le,fun v n f hn => ?_,fun v n f hn => ?_,fun v n f hn => ?_,?_⟩
  · rcases hmem v n f hn with ⟨rfl,rfl,rfl⟩ | hn
    · exact hc
    · exact h.read_le v n f hn
  · rcases hmem v n f hn with ⟨rfl,rfl,rfl⟩ | hn
    · exact hfound
    · exact h.found v n f hn
  · rcases hmem v n f hn with ⟨rfl,rfl,rfl⟩ | hn
    · exact .inl hle
    · exact h.late v n f hn
  · cases h.settled with
    | now hs => exact .now hs
    | behind e n hlt hm hc hs => exact .behind e n hlt hm hc hs
    | owed e v r hs hr hasks hopen =>
      refine .owed e v r hs hr hasks ?_
      rcases hopen with hv | hv | ⟨n,f,hn,hrecent⟩
      · exact .inl hv
      · rw [hreads,List.mem_append,List.mem_cons] at hv
        rcases hv with hv | heq | hv
        · exact .inr (.inl (List.mem_append_left _ hv))
        · obtain rfl : v = w := congrArg Prod.fst heq
          refine .inr (.inr ⟨m,found,List.mem_append_right _ List.mem_cons_self,fun n hn => ?_⟩)
          exact (h.recent_le n hn).trans hle
        · exact .inr (.inl (List.mem_append_right _ (List.mem_cons_of_mem _ hv)))
      · refine .inr (.inr ⟨n,f,?_,hrecent⟩)
        rw [hreads,List.mem_append,List.mem_cons] at hn
        rw [List.mem_append,List.mem_cons]
        rcases hn with hn | heq | hn
        · exact .inl hn
        · cases congrArg Prod.snd heq
        · exact .inr (.inr hn)

lemma fail (h : s.Sound S) {w : ω} {n : Option (ℕ × Bool)} {rs rs' : List (ω × Option (ℕ × Bool))}
    (hreads : s.reads = rs ++ (w,n) :: rs') : Sound S { s.close (rs ++ rs') with work := w :: s.work } := by
  refine h.close hreads ?_
  cases h.settled with
  | now hs => exact .now hs
  | behind e m hlt hm hc hs => exact .behind e m hlt hm hc hs
  | owed e v r hs hr hasks hopen =>
    refine .owed e v r hs hr hasks ?_
    rcases hopen.cases hreads with hopen | ⟨rfl,-⟩
    · exact hopen.imp_left (List.mem_cons_of_mem _)
    · exact .inl List.mem_cons_self

/-- A read that no decision has overtaken is of a version still to be decided, of the one decided last, or
of one from which on nothing shows. -/
lemma late_cases (h : s.Sound S) {w : ω} {m : ℕ} {found : Bool} (hm : (w,some (m,found)) ∈ s.reads)
    (hkept : ∀ d ∈ s.recent, d ≤ m) :
    s.decided < m ∨ m = s.decided ∨ ∀ e, S.shows e m = none ∧ S.shows e s.decided = none := by
  rcases h.late w m found hm with hle | ⟨d,hd,hlt⟩ | hblank
  · rcases Nat.lt_or_eq_of_le hle with hlt | heq
    · exact .inl hlt
    · exact .inr (.inl heq.symm)
  · exact absurd hlt (Nat.not_lt.mpr (hkept d hd))
  · rcases Nat.lt_or_ge s.decided m with hlt | hge
    · exact .inl hlt
    · exact .inr (.inr fun e => ⟨hblank m (Nat.le_refl m) hge e,hblank _ hge (Nat.le_refl _) e⟩)

lemma land (h : s.Sound S) {w : ω} {m : ℕ} {found : Bool} {rs rs' : List (ω × Option (ℕ × Bool))}
    (hreads : s.reads = rs ++ (w,some (m,found)) :: rs') :
    Sound S { s.close (rs ++ rs') with shown := s.landed S m found } := by
  have hmem : (w,some (m,found)) ∈ s.reads := hreads ▸ List.mem_append_right _ List.mem_cons_self
  refine h.close hreads ?_
  rcases landed_cases (S := S) s m found with ⟨⟨d,hd,hlt⟩,hland⟩ | ⟨hkept,hland⟩
  · -- dropped: what is owed is owed by work whose reads no decision has overtaken
    rw [hland]
    cases h.settled with
    | now hs => exact .now hs
    | behind e n hlt hn hc hs => exact .behind e n hlt hn hc hs
    | owed e v r hs hr hasks hopen =>
      rcases hopen.cases hreads with hopen | ⟨-,hrecent⟩
      · exact .owed e v r hs hr hasks hopen
      · exact absurd hlt (Nat.not_lt.mpr (hrecent (m,found) rfl d hd))
  · have hcommitted : m ≤ s.committed := h.read_le w m found hmem
    rcases h.late_cases hmem hkept with hlt | rfl | hnone
    · -- the version read is still to be decided
      have hbehind : s.decided < s.committed := Nat.lt_of_lt_of_le hlt hcommitted
      rcases hland with hland | ⟨hland,-⟩
      · exact .behind s.env m hbehind (Nat.le_of_lt hlt) hcommitted hland
      · rw [hland]
        cases h.settled with
        | now hs => exact .now hs
        | behind e n hlt hn hc hs => exact .behind e n hlt hn hc hs
        | owed e v r hs hr hasks hopen => exact .behind e s.decided hbehind (Nat.le_refl _) h.le hs
    · rcases hland with hland | ⟨hland,hlost⟩
      · exact .now hland
      · rw [hland]
        cases h.settled with
        | now hs => exact .now hs
        | behind e n hlt hn hc hs => exact .behind e n hlt hn hc hs
        | owed e v r hs hr hasks hopen =>
          rcases hopen.cases hreads with hopen | ⟨rfl,-⟩
          · exact .owed e v r hs hr hasks hopen
          · exact absurd (h.found _ _ found hmem r hr hasks) (by simp [hlost])
    · rcases hland with hland | ⟨hland,-⟩
      · exact .now (by rw [hland,(hnone _).1]; exact (hnone _).2.symm)
      · rw [hland]
        cases h.settled with
        | now hs => exact .now hs
        | behind e n hlt hn hc hs => exact .behind e n hlt hn hc hs
        | owed e v r hs hr hasks hopen => exact .now (by rw [hs,(hnone e).2]; exact (hnone _).2.symm)

theorem step (h : s.Sound S) (hstep : Step S s t) : t.Sound S := by
  cases hstep with
  | commit => exact h.commit
  | decide hlt => exact h.decide hlt
  | pass hlt hblank => exact h.pass hlt hblank
  | turn e ws hkept hws => exact h.turn e ws hkept hws
  | begin w ws ws' rs rs' hwork hreads => exact h.begin hwork hreads
  | read w m found rs rs' hreads hle hc hfound => exact h.read hreads hle hc hfound
  | fail w n rs rs' hreads => exact h.fail hreads
  | land w m found rs rs' hreads => exact h.land hreads

theorem run (h : s.Sound S) (hrun : Relation.ReflTransGen (Step S) s t) : t.Sound S := by
  induction hrun with
  | refl => exact h
  | tail _ hstep ih => exact ih.step hstep

/-- At any time what is shown is a version from the one decided last on, as some environment had it. -/
theorem shown_of_version (h : s.Sound S) :
    ∃ e m, s.decided ≤ m ∧ m ≤ s.committed ∧ s.shown = S.shows e m := by
  cases h.settled with
  | now hs => exact ⟨s.env,s.decided,Nat.le_refl _,h.le,hs⟩
  | owed e w r hs => exact ⟨e,s.decided,Nat.le_refl _,h.le,hs⟩
  | behind e m hlt hm hc hs => exact ⟨e,m,hm,hc,hs⟩

/-- With nothing left to decide, to do or to read, the last version is shown as the environment has it. -/
theorem shown_of_quiet (h : s.Sound S) (hdecided : s.decided = s.committed) (hwork : s.work = [])
    (hreads : s.reads = []) : s.shown = S.shows s.env s.committed := by
  cases h.settled with
  | now hs => rwa [hdecided] at hs
  | behind e m hlt => exact absurd hlt (by omega)
  | owed e w r hs hr hasks hopen =>
    rcases hopen with hw | hw | ⟨m,f,hm,-⟩
    · exact absurd hw (by simp [hwork])
    · exact absurd hw (by simp [hreads])
    · exact absurd hm (by simp [hreads])

end Sound

end Display
end LateReads
