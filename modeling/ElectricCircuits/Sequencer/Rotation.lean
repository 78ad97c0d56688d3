import ElectricCircuits.Sequencer.Atomic
import ElectricCircuits.Sequencer.Restart
import Mathlib.Data.List.GetD
import Mathlib.Logic.Function.Basic

/-! The segments of the change log as the ingestor writes them and the sequencer reads them. A rotation
is made in steps that can each fail; a crash or a failure leaves a state that the next attempt, the
next append or the next boot goes on from. -/
namespace ElectricCircuits
open Replay

/-- One stream of the change log. -/
structure Segment where
  envelopes : List Envelope
  closed : Bool

/-- What storage has under `changes/<n>`. -/
abbrev SegmentStore := ℕ → Option Segment

def segmentPath (n : ℕ) : String := changesPrefix ++ "/" ++ toString n

/-- The rotation pointer to the next segment. -/
def rotationEnvelope (next : ℕ) : Envelope where
  type_ := controlType
  key := rotated
  value := some (.object [("next",.string (segmentPath next)),("segment",.int next)])
  old := none
  headers := ⟨rotated,none,none,none,none⟩

namespace SegmentStore

def envelopes (st : SegmentStore) (n : ℕ) : List Envelope := (st n).elim [] (·.envelopes)

def isClosed (st : SegmentStore) (n : ℕ) : Bool := (st n).any (·.closed)

def ensureStream (st : SegmentStore) (n : ℕ) : SegmentStore :=
  if (st n).isSome then st else Function.update st n (some ⟨[],false⟩)

/-- An append to a stream that is there and open; any other stream is retired. -/
def append (st : SegmentStore) (n : ℕ) (envs : List Envelope) : Option SegmentStore :=
  match st n with
  | some ⟨xs,false⟩ => some (Function.update st n (some ⟨xs ++ envs,false⟩))
  | _ => none

def closeStream (st : SegmentStore) (n : ℕ) : SegmentStore :=
  match st n with
  | some seg => Function.update st n (some { seg with closed := true })
  | none => st

/-- The successor of a closed segment, verified to exist. -/
def nextSegmentForReader (st : SegmentStore) (closed : ℕ) : Except String ℕ :=
  if (st (closed+1)).isSome then .ok (closed+1)
  else .error s!"change log: {segmentPath closed} is closed but its successor does not exist"

/-- The walk over closed segments to the one that the log is written at. -/
def resolveCurrent (st : SegmentStore) (start : ℕ) (recorded : Bool) : ℕ → ℕ → Except String ℕ
  | 0,_ => .error s!"change log: walking forward from segment {start} did not terminate"
  | fuel+1,cur =>
    match st cur with
    | none =>
      if cur = start ∧ recorded = false then .ok cur
      else .error s!"change log: {segmentPath cur} is recorded as a segment that existed"
    | some seg =>
      if seg.closed = false then .ok cur
      else
        match nextSegmentForReader st cur with
        | .error e => .error e
        | .ok next => resolveCurrent st start recorded fuel next

end SegmentStore

/-- The storage round trips that a rotation has behind it. -/
inductive Rotating where
  | idle
  | created
  | pointed
  | closed
  deriving DecidableEq

/-- The change log and its writer: what storage holds, the last segment that the catalog recorded, the
writer's segment and its rotation, and the changes that appends have stored, in order. -/
structure ChangeLog where
  store : SegmentStore
  recorded : Option ℕ
  current : ℕ
  rotating : Rotating
  landed : List Envelope

namespace ChangeLog

/-- The log when the first boot has created its first segment. -/
def init : ChangeLog := ⟨SegmentStore.ensureStream (fun _ => none) 0,none,0,.idle,[]⟩

/-- The bound on the walk over closed segments. -/
def walkLimit : ℕ := 1000000

/-- One storage round trip of the writer, a record that the catalog lands, or a restart. A round trip
whose answer is lost is one that is made and then fails. -/
inductive Write : ChangeLog → ChangeLog → Prop where
  | appendCommit (s : ChangeLog) {envs : List Envelope} {st : SegmentStore} (hidle : s.rotating = .idle)
    (hchange : ∀ e ∈ envs, isControl e = false) (hst : s.store.append s.current envs = some st) :
    Write s { s with store := st, landed := s.landed ++ envs }
  | resolveForward (s : ChangeLog) {n : ℕ} (hidle : s.rotating = .idle)
    (hn : s.store.resolveCurrent s.current true walkLimit s.current = .ok n) :
    Write s { s with current := n }
  | record (s : ChangeLog) {n : ℕ} (hn : n ≤ s.current) :
    Write s { s with recorded := some (max n (s.recorded.getD 0)) }
  | create (s : ChangeLog) (hidle : s.rotating = .idle) :
    Write s { s with store := s.store.ensureStream (s.current+1), rotating := .created }
  | point (s : ChangeLog) {st : SegmentStore} (hr : s.rotating = .created)
    (hst : s.store.append s.current [rotationEnvelope (s.current+1)] = some st) :
    Write s { s with store := st, rotating := .pointed }
  | close (s : ChangeLog) (hr : s.rotating = .pointed) :
    Write s { s with store := s.store.closeStream s.current, rotating := .closed }
  | began (s : ChangeLog) (hr : s.rotating = .closed) :
    Write s { s with current := s.current+1, rotating := .idle }
  | fail (s : ChangeLog) : Write s { s with rotating := .idle }
  | restart (s : ChangeLog) {n : ℕ}
    (hn : s.store.resolveCurrent (s.recorded.getD 0) s.recorded.isSome walkLimit
      (s.recorded.getD 0) = .ok n) :
    Write s { s with store := s.store.ensureStream n, current := n, rotating := .idle }

end ChangeLog

/-- A read of up to `n` envelopes of the reader's segment. -/
def SegmentStore.read (st : SegmentStore) (pos : LogPosition) (n : ℕ) (closed : Bool) : ReadResult :=
  let page := ((st.envelopes pos.segment).drop pos.offset).take n
  ⟨page,some (pos.offset+page.length),closed⟩

/-- The read branch of the sequencer: a closed segment without a pointer is left only for a successor
that exists. -/
def readSegment (st : SegmentStore) (s : LoopState) (rr : ReadResult) : LoopState × List Flush :=
  let r := readPage s rr none
  let stay := { s.pos with offset := rr.nextOffset.getD s.pos.offset }
  if r.1.pos = stay ∨ ((rotationTargetIn rr.envelopes).or s.rotateTo).isSome then r
  else
    match st.nextSegmentForReader s.pos.segment with
    | .ok _ => r
    | .error _ => ({ r.1 with pos := stay },r.2)

/-- The writer and a reader that began at the first segment, with the changes that the reader has
taken off its pages and those that it handed to the executors. -/
structure LogSystem where
  log : ChangeLog
  loop : LoopState
  visited : List Envelope
  handed : List Envelope

namespace LogSystem

def init : LogSystem := ⟨.init,.restart (.startOf 0) none,[],[]⟩

def read (s : LogSystem) (n : ℕ) (closed : Bool) : LogSystem :=
  let rr := s.log.store.read s.loop.pos n closed
  let r := readSegment s.log.store s.loop rr
  { s with
    loop := r.1
    visited := s.visited ++ changesOf rr.envelopes
    handed := s.handed ++ r.2.flatMap (·.fresh) }

/-- A read returns at least one envelope where there is one, and says that a segment is closed only
if it is. -/
inductive Read : LogSystem → LogSystem → Prop where
  | read (s : LogSystem) {n : ℕ} {closed : Bool} (hn : 0 < n)
    (hclosed : closed = true → s.log.store.isClosed s.loop.pos.segment = true) :
    Read s (s.read n closed)

inductive Step : LogSystem → LogSystem → Prop where
  | write {s : LogSystem} {l : ChangeLog} (h : ChangeLog.Write s.log l) : Step s { s with log := l }
  | read {s t : LogSystem} (h : Read s t) : Step s t

def Reachable (s : LogSystem) : Prop := Relation.ReflTransGen Step init s

end LogSystem

namespace SegmentStore

/-- The segments up to `o` are the log: those before `o` are closed, `o` is open, and behind it there
is at most a successor that nothing was appended to. Pointers name the segment that comes next. -/
structure Chained (st : SegmentStore) (o : ℕ) : Prop where
  before : ∀ k < o, ∃ xs, st k = some ⟨xs,true⟩
  atOpen : ∃ xs, st o = some ⟨xs,false⟩
  next : st (o+1) = none ∨ st (o+1) = some ⟨[],false⟩
  behind : ∀ k, o+1 < k → st k = none
  pointer : ∀ k, ∀ e ∈ st.envelopes k, ∀ n ∈ rotationTarget e, n = k+1

/-- What the segments of the log hold. -/
def contents (st : SegmentStore) (o : ℕ) : List (List Envelope) := (List.range (o+1)).map st.envelopes

@[simp] lemma length_contents (st : SegmentStore) (o : ℕ) : (st.contents o).length = o+1 := by
  simp [contents]

lemma contents_getD (st : SegmentStore) {o k : ℕ} (hk : k ≤ o) :
    (st.contents o).getD k [] = st.envelopes k := by
  have hlt : k < o+1 := by omega
  simp [contents,List.getD,hlt]

lemma contents_succ (st : SegmentStore) (o : ℕ) :
    st.contents o = (List.range o).map st.envelopes ++ [st.envelopes o] := by
  rw [contents,List.range_succ,List.map_append,List.map_singleton]

variable {st : SegmentStore} {o : ℕ}

lemma Chained.of_append (h : st.Chained o) {n : ℕ} {envs : List Envelope} {st' : SegmentStore}
    (hn : n ≤ o) (hst : st.append n envs = some st') :
    n = o ∧ st' = Function.update st o (some ⟨st.envelopes o ++ envs,false⟩) := by
  have hno : n = o := by
    by_contra hne
    obtain ⟨xs,hxs⟩ := h.before n (by omega)
    simp [append,hxs] at hst
  subst hno
  obtain ⟨xs,hxs⟩ := h.atOpen
  simp only [append,hxs,Option.some.injEq] at hst
  exact ⟨rfl,by simp [← hst,envelopes,hxs]⟩

lemma Chained.isSome (h : st.Chained o) {k : ℕ} (hk : k ≤ o) : (st k).isSome = true := by
  rcases Nat.lt_or_eq_of_le hk with hk | rfl
  · obtain ⟨xs,hxs⟩ := h.before k hk
    simp [hxs]
  · obtain ⟨xs,hxs⟩ := h.atOpen
    simp [hxs]

/-- Creating the successor changes nothing of the log. -/
lemma Chained.ensureStream (h : st.Chained o) {n : ℕ} (hn : n ≤ o+1) :
    (st.ensureStream n).Chained o ∧ (st.ensureStream n).envelopes = st.envelopes := by
  rw [SegmentStore.ensureStream]
  split_ifs with hs
  · exact ⟨h,rfl⟩
  · have hno : n = o+1 := by
      by_contra hne
      exact hs (h.isSome (by omega))
    subst hno
    have hnone : st (o+1) = none := by simpa using hs
    have henv : SegmentStore.envelopes (Function.update st (o+1) (some ⟨[],false⟩)) =
        st.envelopes := by
      funext k
      rcases eq_or_ne k (o+1) with rfl | hk
      · simp [envelopes,hnone]
      · simp [envelopes,hk]
    refine ⟨⟨?_,?_,?_,?_,?_⟩,henv⟩
    · intro k hk
      rw [Function.update_of_ne (by omega)]
      exact h.before k hk
    · rw [Function.update_of_ne (by omega)]
      exact h.atOpen
    · exact .inr (Function.update_self ..)
    · intro k hk
      rw [Function.update_of_ne (by omega)]
      exact h.behind k hk
    · rw [henv]
      exact h.pointer

/-- An append goes to the end of the log. -/
lemma Chained.append (h : st.Chained o) {envs : List Envelope}
    (hpointer : ∀ e ∈ envs, ∀ n ∈ rotationTarget e, n = o+1) :
    let st' : SegmentStore := Function.update st o (some ⟨st.envelopes o ++ envs,false⟩)
    st'.Chained o ∧ st'.contents o = (List.range o).map st.envelopes ++ [st.envelopes o ++ envs] := by
  intro st'
  have hother : ∀ k, k ≠ o → st' k = st k := fun k hk => Function.update_of_ne hk _ _
  have henv : ∀ k, k ≠ o → st'.envelopes k = st.envelopes k :=
    fun k hk => by rw [envelopes,envelopes,hother k hk]
  have hself : st' o = some ⟨st.envelopes o ++ envs,false⟩ := Function.update_self ..
  have hlast : st'.envelopes o = st.envelopes o ++ envs := by rw [envelopes,hself]; rfl
  refine ⟨⟨?_,⟨_,hself⟩,?_,?_,?_⟩,?_⟩
  · intro k hk
    rw [hother k (by omega)]
    exact h.before k hk
  · rw [hother _ (by omega)]
    exact h.next
  · intro k hk
    rw [hother k (by omega)]
    exact h.behind k hk
  · intro k e he
    rcases eq_or_ne k o with rfl | hk
    · rw [hlast,List.mem_append] at he
      rcases he with he | he
      · exact h.pointer k e he
      · exact hpointer e he
    · rw [henv k hk] at he
      exact h.pointer k e he
  · rw [contents_succ,hlast]
    congr 1
    exact List.map_congr_left fun k hk => henv k (List.mem_range.mp hk).ne

/-- Closing a segment of the log moves its end to the successor, or does nothing. -/
lemma Chained.closeStream (h : st.Chained o) (hnext : (st (o+1)).isSome = true) :
    (st.closeStream o).Chained (o+1) ∧ (st.closeStream o).envelopes = st.envelopes := by
  obtain ⟨xs,hxs⟩ := h.atOpen
  have hst : st.closeStream o = Function.update st o (some ⟨xs,true⟩) := by
    simp [SegmentStore.closeStream,hxs]
  have henv : (st.closeStream o).envelopes = st.envelopes := by
    funext k
    rcases eq_or_ne k o with rfl | hk
    · simp [hst,envelopes,hxs]
    · simp [hst,envelopes,hk]
  have hother : ∀ k, k ≠ o → st.closeStream o k = st k :=
    fun k hk => by rw [hst,Function.update_of_ne hk]
  refine ⟨⟨?_,?_,?_,?_,?_⟩,henv⟩
  · intro k hk
    rcases eq_or_ne k o with rfl | hne
    · exact ⟨xs,by rw [hst,Function.update_self]⟩
    · rw [hother k hne]
      exact h.before k (by omega)
  · rw [hother _ (by omega)]
    rcases h.next with hn | hn
    · simp [hn] at hnext
    · exact ⟨[],hn⟩
  · rw [hother _ (by omega)]
    exact .inl (h.behind _ (by omega))
  · intro k hk
    rw [hother k (by omega)]
    exact h.behind k (by omega)
  · rw [henv]
    exact h.pointer

lemma Chained.closeStream_before (h : st.Chained o) {n : ℕ} (hn : n < o) :
    st.closeStream n = st := by
  obtain ⟨xs,hxs⟩ := h.before n hn
  simp only [SegmentStore.closeStream,hxs]
  exact Function.update_eq_self_iff.mpr hxs.symm

/-- The walk ends at the open segment. -/
lemma Chained.resolveCurrent (h : st.Chained o) {start : ℕ} {recorded : Bool} (fuel : ℕ) {cur n : ℕ}
    (hcur : cur ≤ o) (hn : st.resolveCurrent start recorded fuel cur = .ok n) : n = o := by
  induction fuel generalizing cur with
  | zero => cases hn
  | succ fuel ih =>
    rw [SegmentStore.resolveCurrent] at hn
    rcases Nat.lt_or_eq_of_le hcur with hlt | rfl
    · obtain ⟨xs,hxs⟩ := h.before cur hlt
      have hsucc : st.nextSegmentForReader cur = .ok (cur+1) := by
        rw [nextSegmentForReader,if_pos (h.isSome hlt)]
      simp only [hxs,hsucc,Bool.true_eq_false,if_false] at hn
      exact ih hlt hn
    · obtain ⟨xs,hxs⟩ := h.atOpen
      simp only [hxs,if_true] at hn
      exact (Except.ok.inj hn).symm

end SegmentStore

lemma changesOf_eq_self {xs : List Envelope} (h : ∀ e ∈ xs, isControl e = false) :
    changesOf xs = xs := List.filter_eq_self.mpr fun e he => by simp [h e he]

lemma rotationTarget_rotationEnvelope (next : ℕ) :
    ∀ n ∈ rotationTarget (rotationEnvelope next), n = next := by
  intro n hn
  have hseg : rotationTarget (rotationEnvelope next) = if next < 2^32 then some next else none := by
    simp [rotationTarget,rotationEnvelope,isControl,Json.get?,Json.asU64]
  rw [hseg] at hn
  split_ifs at hn
  · exact (Option.some.inj hn).symm
  · cases hn

lemma changesOf_rotationEnvelope (next : ℕ) : changesOf [rotationEnvelope next] = [] := by
  simp [changesOf,isControl,rotationEnvelope]

namespace ChangeLog

/-- What holds of the log at any time, `o` being the open segment. -/
structure Inv (s : ChangeLog) (o : ℕ) : Prop where
  chained : s.store.Chained o
  current : s.current ≤ o
  recorded : ∀ n ∈ s.recorded, n ≤ o
  successor : s.rotating ≠ .idle → (s.store (s.current+1)).isSome = true
  done : s.rotating = .closed → s.current < o
  landed : changesOf (s.store.contents o).flatten = s.landed

/-- The segments grow at their end: nothing, an append to the last one, or a new empty one. -/
inductive Grows (segs : List (List Envelope)) : List (List Envelope) → List Envelope → Prop where
  | same : Grows segs segs []
  | append {xs : List (List Envelope)} {l es : List Envelope} (h : segs = xs ++ [l]) :
    Grows segs (xs ++ [l ++ es]) es
  | segment : Grows segs (segs ++ [[]]) []

lemma Grows.changes {segs segs' : List (List Envelope)} {es : List Envelope}
    (h : Grows segs segs' es) : changesOf segs'.flatten = changesOf segs.flatten ++ changesOf es := by
  cases h with
  | same => simp [changesOf]
  | append h => simp [h,changesOf]
  | segment => simp [changesOf]

lemma init_store (k : ℕ) : init.store k = if k = 0 then some ⟨[],false⟩ else none := by
  split_ifs with hk
  · subst hk
    rfl
  · exact Function.update_of_ne hk _ fun _ => none

lemma inv_init : Inv init 0 where
  chained := by
    refine ⟨by simp,⟨[],by simp [init_store]⟩,.inl (by simp [init_store]),fun k hk => ?_,
      fun k e he => ?_⟩
    · rw [init_store,if_neg (by omega)]
    · rw [SegmentStore.envelopes,init_store] at he
      split_ifs at he <;> simp at he
  current := le_rfl
  recorded := by simp [init]
  successor := by simp [init]
  done := by simp [init]
  landed := rfl

/-- A write keeps the invariant; it lets the log grow at its end by the changes that it lands, and no
closed segment opens or changes. -/
theorem inv_write {s t : ChangeLog} {o : ℕ} (h : Inv s o) (hw : Write s t) :
    ∃ o' es, Inv t o' ∧ Grows (s.store.contents o) (t.store.contents o') es ∧
      t.landed = s.landed ++ changesOf es := by
  cases hw with
  | @appendCommit envs st hidle hchange hst =>
    obtain ⟨hcur,rfl⟩ := h.chained.of_append h.current hst
    have hpointer : ∀ e ∈ envs, ∀ n ∈ rotationTarget e, n = o+1 := by
      intro e he n hn
      simp [rotationTarget,hchange e he] at hn
    obtain ⟨hchained,hcontents⟩ := h.chained.append hpointer
    have hgrows : Grows (s.store.contents o) _ envs := .append (s.store.contents_succ o)
    rw [← hcontents] at hgrows
    refine ⟨o,envs,⟨hchained,h.current,h.recorded,fun hr => absurd hidle hr,?_,?_⟩,hgrows,?_⟩
    · intro hr
      rw [hidle] at hr
      cases hr
    · rw [hgrows.changes,h.landed,changesOf_eq_self hchange]
    · rw [changesOf_eq_self hchange]
  | resolveForward hidle hn =>
    obtain rfl := h.chained.resolveCurrent _ h.current hn
    refine ⟨_,[],⟨h.chained,le_rfl,h.recorded,fun hr => absurd hidle hr,?_,h.landed⟩,.same,by simp [changesOf]⟩
    intro hr
    rw [hidle] at hr
    cases hr
  | record hn =>
    refine ⟨o,[],⟨h.chained,h.current,?_,h.successor,h.done,h.landed⟩,.same,by simp [changesOf]⟩
    rintro m ⟨⟩
    have hrec : s.recorded.getD 0 ≤ o := by
      cases hr : s.recorded with
      | none => exact Nat.zero_le _
      | some k => exact h.recorded k hr
    have hcur := h.current
    omega
  | create hidle =>
    have hcur := h.current
    obtain ⟨hchained,henv⟩ := h.chained.ensureStream (n := s.current+1) (by omega)
    have hcontents : (s.store.ensureStream (s.current+1)).contents o = s.store.contents o := by
      rw [SegmentStore.contents,SegmentStore.contents,henv]
    refine ⟨o,[],⟨hchained,h.current,h.recorded,fun _ => ?_,(by rintro ⟨⟩),?_⟩,?_,by simp [changesOf]⟩
    · simp only [SegmentStore.ensureStream]
      split_ifs with hs
      · exact hs
      · simp
    · rw [hcontents,h.landed]
    · rw [hcontents]
      exact .same
  | @point st hr hst =>
    have hsucc := h.successor (by simp [hr])
    obtain ⟨hcur,rfl⟩ := h.chained.of_append h.current hst
    have hpointer : ∀ e ∈ [rotationEnvelope (s.current+1)], ∀ n ∈ rotationTarget e, n = o+1 := by
      intro e he n hn
      rw [List.mem_singleton.mp he] at hn
      rw [rotationTarget_rotationEnvelope _ n hn,hcur]
    obtain ⟨hchained,hcontents⟩ := h.chained.append hpointer
    have hgrows : Grows (s.store.contents o) _ [rotationEnvelope (s.current+1)] :=
      .append (s.store.contents_succ o)
    rw [← hcontents] at hgrows
    refine ⟨o,_,⟨hchained,h.current,h.recorded,fun _ => ?_,(by rintro ⟨⟩),?_⟩,hgrows,?_⟩
    · rw [hcur] at hsucc ⊢
      simpa using hsucc
    · rw [hgrows.changes,h.landed,changesOf_rotationEnvelope,List.append_nil]
    · rw [changesOf_rotationEnvelope,List.append_nil]
  | close hr =>
    have hsucc := h.successor (by simp [hr])
    rcases Nat.lt_or_eq_of_le h.current with hlt | hcur
    · refine ⟨o,[],?_,?_,by simp [changesOf]⟩
      · rw [h.chained.closeStream_before hlt]
        exact ⟨h.chained,h.current,h.recorded,fun _ => hsucc,fun _ => hlt,h.landed⟩
      · rw [h.chained.closeStream_before hlt]
        exact .same
    · rw [hcur] at hsucc ⊢
      obtain ⟨hchained,henv⟩ := h.chained.closeStream hsucc
      have hempty : s.store.envelopes (o+1) = [] := by
        rcases h.chained.next with hn | hn <;> simp [SegmentStore.envelopes,hn]
      have hcontents : (s.store.closeStream o).contents (o+1) = s.store.contents o ++ [[]] := by
        rw [SegmentStore.contents_succ,henv,hempty,SegmentStore.contents]
      have hgrows : Grows (s.store.contents o) ((s.store.closeStream o).contents (o+1)) [] := by
        rw [hcontents]
        exact .segment
      refine ⟨o+1,[],⟨hchained,by simp,?_,fun _ => ?_,fun _ => by simp,?_⟩,hgrows,
        by simp [changesOf]⟩
      · exact fun n hn => Nat.le_succ_of_le (h.recorded n hn)
      · exact hchained.isSome (by simp)
      · rw [hgrows.changes,h.landed]
        simp [changesOf]
  | began hr =>
    refine ⟨o,[],⟨h.chained,h.done hr,h.recorded,fun hr => absurd rfl hr,(by rintro ⟨⟩),h.landed⟩,.same,
      by simp [changesOf]⟩
  | fail =>
    exact ⟨o,[],⟨h.chained,h.current,h.recorded,fun hr => absurd rfl hr,(by rintro ⟨⟩),h.landed⟩,.same,
      by simp [changesOf]⟩
  | @restart n hn =>
    have hstart : s.recorded.getD 0 ≤ o := by
      cases hr : s.recorded with
      | none => exact Nat.zero_le _
      | some k => exact h.recorded k hr
    obtain rfl := h.chained.resolveCurrent _ hstart hn
    have hsame : s.store.ensureStream n = s.store := by
      rw [SegmentStore.ensureStream,if_pos (h.chained.isSome le_rfl)]
    refine ⟨n,[],?_,?_,by simp [changesOf]⟩
    · rw [hsame]
      exact ⟨h.chained,le_rfl,h.recorded,fun hr => absurd rfl hr,(by rintro ⟨⟩),h.landed⟩
    · rw [hsame]
      exact .same

/-- The log is one that the sequencer's restarts were verified over. -/
lemma Inv.segmented {s : ChangeLog} {o : ℕ} (h : Inv s o) :
    Segmented s.landed (s.store.contents o) where
  log := h.landed
  pointer := by
    intro k e he
    rcases Nat.lt_or_ge o k with hk | hk
    · rw [List.getD_eq_default _ _ (by simp only [SegmentStore.length_contents]; omega)] at he
      cases he
    · rw [SegmentStore.contents_getD _ hk] at he
      exact h.chained.pointer k e he

/-- A position of the log sees what the log grows by. -/
lemma logFrom_grows {segs segs' : List (List Envelope)} {es : List Envelope} (h : Grows segs segs' es)
    {pos : LogPosition} (hpos : pos.segment < segs.length)
    (hoff : pos.offset ≤ (segs.getD pos.segment []).length) :
    logFrom segs' pos = logFrom segs pos ++ changesOf es := by
  cases h with
  | same => simp [changesOf]
  | @append xs l _ h =>
    subst h
    have hle : pos.segment ≤ xs.length := by simpa [Nat.lt_succ_iff] using hpos
    rw [logFrom,logFrom,changesOf,← List.filter_append]
    congr 1
    rcases Nat.lt_or_eq_of_le hle with hlt | heq
    · rw [List.getD_append _ _ _ _ hlt,List.getD_append _ _ _ _ hlt,
        List.drop_append_of_le_length (by omega),List.drop_append_of_le_length (by omega)]
      simp
    · have hlast : ∀ m : List Envelope, (xs ++ [m]).getD pos.segment [] = m := by
        intro m
        rw [heq,List.getD_append_right _ _ _ _ le_rfl]
        simp
      rw [hlast] at hoff ⊢
      have hend : ∀ m : List Envelope, (xs ++ [m]).drop (pos.segment+1) = [] :=
        fun m => List.drop_eq_nil_of_le (by simp [heq])
      rw [hlast,hend,hend,List.drop_append_of_le_length hoff]
      simp
  | segment =>
    rw [logFrom,logFrom,List.getD_append _ _ _ _ hpos,List.drop_append_of_le_length hpos]
    simp [changesOf]

lemma Grows.within {segs segs' : List (List Envelope)} {es : List Envelope} (h : Grows segs segs' es)
    {k : ℕ} (hk : k < segs.length) :
    k < segs'.length ∧ (segs.getD k []).length ≤ (segs'.getD k []).length := by
  cases h with
  | same => exact ⟨hk,le_rfl⟩
  | @append xs l _ h =>
    subst h
    have hle : k ≤ xs.length := by simpa [Nat.lt_succ_iff] using hk
    refine ⟨by simpa using hk,?_⟩
    rcases Nat.lt_or_eq_of_le hle with hlt | rfl
    · rw [List.getD_append _ _ _ _ hlt,List.getD_append _ _ _ _ hlt]
    · rw [List.getD_append_right _ _ _ _ le_rfl,List.getD_append_right _ _ _ _ le_rfl]
      simp
  | segment =>
    refine ⟨by simp only [List.length_append]; omega,?_⟩
    rw [List.getD_append _ _ _ _ hk]

end ChangeLog

lemma mem_intake {held page : List Envelope} {e : Envelope}
    (he : e ∈ (intake held page).runs.flatten ∨ e ∈ (intake held page).held) :
    e ∈ held ∨ e ∈ page := by
  have hsub : e ∈ (reattach held page).1 := by
    rw [← intake_append]
    exact List.mem_append.mpr he
  exact List.mem_append.mp (reattach_subset_append hsub)

lemma readPage_cross (s : LoopState) (rr : ReadResult) {m : ℕ} (hm : rr.nextOffset = some m) :
    ((readPage s rr none).1.pos,(readPage s rr none).1.rotateTo) =
      crossSegment s.pos { s.pos with offset := m } rr ((rotationTargetIn rr.envelopes).or s.rotateTo) := by
  simp only [readPage,hm]

namespace LogSystem

/-- What holds of the log and its reader at any time, `o` being the open segment. -/
structure Inv (s : LogSystem) (o : ℕ) : Prop where
  log : s.log.Inv o
  range : s.loop.pos.segment ≤ o
  within : s.loop.pos.offset ≤ (s.log.store.envelopes s.loop.pos.segment).length
  rotate : ∀ n ∈ s.loop.rotateTo, n = s.loop.pos.segment+1
  split : s.log.landed = s.visited ++ logFrom (s.log.store.contents o) s.loop.pos
  held : ∀ e ∈ s.loop.held, isControl e = false
  handed : ∀ e ∈ s.handed, isControl e = false

lemma inv_init : Inv init 0 where
  log := ChangeLog.inv_init
  range := le_rfl
  within := Nat.zero_le _
  rotate := by simp [init,LoopState.restart]
  split := rfl
  held := by simp [init,LoopState.restart]
  handed := by simp [init]

lemma Inv.write {s : LogSystem} {o : ℕ} (h : Inv s o) {l : ChangeLog} (hw : ChangeLog.Write s.log l) :
    ∃ o', Inv { s with log := l } o' := by
  obtain ⟨o',es,hl,hgrows,hlanded⟩ := ChangeLog.inv_write h.log hw
  have hlen : s.loop.pos.segment < (s.log.store.contents o).length := by
    have hr := h.range
    simp
    omega
  have hoff : s.loop.pos.offset ≤ ((s.log.store.contents o).getD s.loop.pos.segment []).length := by
    rw [SegmentStore.contents_getD _ h.range]
    exact h.within
  obtain ⟨hlen',hle⟩ := hgrows.within hlen
  have hrange : s.loop.pos.segment ≤ o' := by
    rw [SegmentStore.length_contents] at hlen'
    omega
  rw [SegmentStore.contents_getD _ hrange] at hle
  refine ⟨o',hl,hrange,hoff.trans hle,h.rotate,?_,h.held,h.handed⟩
  rw [ChangeLog.logFrom_grows hgrows hlen hoff,hlanded,h.split,List.append_assoc]

/-- A read takes the next page, or leaves a segment that is closed and read to its end. -/
lemma Inv.read {s : LogSystem} {o : ℕ} (h : Inv s o) {n : ℕ} {closed : Bool} (hn : 0 < n)
    (hclosed : closed = true → s.log.store.isClosed s.loop.pos.segment = true) :
    Inv (s.read n closed) o ∧ (s.read n closed).log = s.log ∧
      (¬(closed = true ∧
            (s.log.store.envelopes s.loop.pos.segment).length ≤ s.loop.pos.offset) ∧
          (s.read n closed).loop.pos = ⟨s.loop.pos.segment,s.loop.pos.offset +
            (s.log.store.read s.loop.pos n closed).envelopes.length⟩ ∨
        closed = true ∧ (s.log.store.envelopes s.loop.pos.segment).length ≤ s.loop.pos.offset ∧
          (s.read n closed).loop.pos = .startOf (s.loop.pos.segment+1)) := by
  have hseg := h.log.segmented
  have hread : s.log.store.read s.loop.pos n closed =
      readAt (s.log.store.contents o) s.loop.pos n closed := by
    rw [SegmentStore.read,readAt,SegmentStore.contents_getD _ h.range]
  have hlt : closed = true → s.loop.pos.segment < o := by
    intro hc
    rcases Nat.lt_or_eq_of_le h.range with hlt | heq
    · exact hlt
    · obtain ⟨xs,hxs⟩ := h.log.chained.atOpen
      have hcl := hclosed hc
      simp [SegmentStore.isClosed,heq,hxs] at hcl
  obtain ⟨hrot,hcross⟩ := crossSegment_cases hseg h.rotate closed hn rfl
  have hpagelen : (readAt (s.log.store.contents o) s.loop.pos n closed).envelopes.length ≤
      (s.log.store.envelopes s.loop.pos.segment).length-s.loop.pos.offset := by
    rw [← hread]
    simp only [SegmentStore.read,List.length_take,List.length_drop]
    exact min_le_right _ _
  set rr := readAt (s.log.store.contents o) s.loop.pos n closed with hrr
  set next : LogPosition := { s.loop.pos with offset := s.loop.pos.offset+rr.envelopes.length } with hnext
  have hpage := readPage_cross s.loop rr (m := s.loop.pos.offset+rr.envelopes.length) rfl
  have hsame : readSegment s.log.store s.loop rr = readPage s.loop rr none := by
    rw [readSegment]
    rcases hcross with ⟨-,hcross⟩ | ⟨hc,-,-⟩
    · have hpos : (readPage s.loop rr none).1.pos = next := by
        rw [hcross] at hpage
        exact (Prod.mk.inj hpage).1
      exact if_pos (.inl hpos)
    · have hnext : s.log.store.nextSegmentForReader s.loop.pos.segment =
          .ok (s.loop.pos.segment+1) := by
        rw [SegmentStore.nextSegmentForReader,if_pos (h.log.chained.isSome (hlt hc))]
      rw [hnext]
      exact ite_self _
  have hstate : s.read n closed = ⟨s.log,(readPage s.loop rr none).1,s.visited ++ changesOf rr.envelopes,
      s.handed ++ (readPage s.loop rr none).2.flatMap (·.fresh)⟩ := by
    rw [LogSystem.read]
    simp only [hread,hsame]
  have hlog : logFrom (s.log.store.contents o) s.loop.pos =
      changesOf rr.envelopes ++ logFrom (s.log.store.contents o) next := logFrom_readAt _ _ _ _
  have hsplit : s.log.landed = s.visited ++ changesOf rr.envelopes ++
      logFrom (s.log.store.contents o) next := by
    rw [h.split,hlog,List.append_assoc]
  have hchange : ∀ e ∈ changesOf rr.envelopes, isControl e = false := by
    intro e he
    simpa using (List.mem_filter.mp he).2
  have hheld : ∀ e ∈ (readPage s.loop rr none).1.held, isControl e = false := by
    intro e he
    rcases mem_intake (.inr he) with he | he
    · exact h.held e he
    · exact hchange e he
  have hhanded : ∀ e ∈ s.handed ++ (readPage s.loop rr none).2.flatMap (·.fresh),
      isControl e = false := by
    intro e he
    rcases List.mem_append.mp he with he | he
    · exact h.handed e he
    · have hfresh : e ∈ (intake s.loop.held (changesOf rr.envelopes)).runs.flatten := by
        have hrun : (readPage s.loop rr none).2.flatMap (·.fresh) =
            (dedup Envelope.position s.loop.highwater
              (intake s.loop.held (changesOf rr.envelopes)).runs.flatten).2 := processRuns_fresh _ _
        rw [hrun] at he
        exact dedup_subset _ he
      rcases mem_intake (.inl hfresh) with he | he
      · exact h.held e he
      · exact hchange e he
  rw [hstate,hread]
  rcases hcross with ⟨hstay,hcross⟩ | ⟨hc,hend,hcross⟩
  · rw [hcross] at hpage
    obtain ⟨hpos,hrotate⟩ := Prod.mk.inj hpage
    rw [SegmentStore.contents_getD _ h.range,List.drop_eq_nil_iff] at hstay
    refine ⟨⟨h.log,?_,?_,?_,?_,hheld,hhanded⟩,rfl,.inl ⟨hstay,hpos⟩⟩
    · rw [hpos]
      exact h.range
    · have hwithin := h.within
      rw [hpos]
      simp only [hnext]
      omega
    · rw [hpos,hrotate]
      exact hrot
    · rw [hpos]
      exact hsplit
  · rw [hcross] at hpage
    obtain ⟨hpos,hrotate⟩ := Prod.mk.inj hpage
    have hempty : rr.envelopes = [] := by
      rw [hrr,readAt,hend,List.take_nil]
    have hsucc := hlt hc
    rw [SegmentStore.contents_getD _ h.range,List.drop_eq_nil_iff] at hend
    refine ⟨⟨h.log,?_,?_,?_,?_,hheld,hhanded⟩,rfl,.inr ⟨hc,hend,hpos⟩⟩
    · rw [hpos]
      exact hsucc
    · rw [hpos]
      exact Nat.zero_le _
    · rw [hrotate]
      simp
    · have hdrop : ((s.log.store.contents o).getD s.loop.pos.segment []).drop s.loop.pos.offset = [] := by
        rw [SegmentStore.contents_getD _ h.range]
        exact List.drop_eq_nil_of_le hend
      rw [hpos,logFrom_cross (by simpa using hsucc) hdrop,h.split,hempty]
      simp [changesOf]

theorem inv_of_reachable {s : LogSystem} (h : Reachable s) : ∃ o, Inv s o := by
  induction h with
  | refl => exact ⟨0,inv_init⟩
  | tail _ hst ih =>
    obtain ⟨o,hinv⟩ := ih
    cases hst with
    | write hw => exact hinv.write hw
    | read hr =>
      cases hr with
      | read hn hclosed => exact ⟨o,(hinv.read hn hclosed).1⟩

/-- One read can take all that is left of a segment. -/
lemma Inv.drain {s : LogSystem} {o : ℕ} (h : Inv s o) :
    ∃ t, Read s t ∧ Inv t o ∧ t.log = s.log ∧ t.loop.pos.segment = s.loop.pos.segment ∧
      (s.log.store.envelopes s.loop.pos.segment).length ≤ t.loop.pos.offset := by
  have hn : 0 < (s.log.store.envelopes s.loop.pos.segment).length+1 := Nat.succ_pos _
  have hopen : false = true → s.log.store.isClosed s.loop.pos.segment = true := nofun
  obtain ⟨hinv,hlog,⟨-,hpos⟩ | ⟨hc,-,-⟩⟩ := h.read hn hopen
  · refine ⟨_,.read s hn hopen,hinv,hlog,by rw [hpos],?_⟩
    rw [hpos]
    simp only [SegmentStore.read,List.length_take,List.length_drop]
    omega
  · cases hc

/-- A segment that is closed and read to its end is left for the next one. -/
lemma Inv.cross {s : LogSystem} {o : ℕ} (h : Inv s o) (hlt : s.loop.pos.segment < o)
    (hend : (s.log.store.envelopes s.loop.pos.segment).length ≤ s.loop.pos.offset) :
    ∃ t, Read s t ∧ Inv t o ∧ t.log = s.log ∧ t.loop.pos.segment = s.loop.pos.segment+1 := by
  obtain ⟨xs,hxs⟩ := h.log.chained.before _ hlt
  have hclosed : true = true → s.log.store.isClosed s.loop.pos.segment = true := by
    simp [SegmentStore.isClosed,hxs]
  obtain ⟨hinv,hlog,⟨hstay,-⟩ | ⟨-,-,hpos⟩⟩ := h.read Nat.one_pos hclosed
  · exact absurd ⟨rfl,hend⟩ hstay
  · exact ⟨_,.read s Nat.one_pos hclosed,hinv,hlog,by rw [hpos,LogPosition.startOf]⟩

/-- With no more appends, reads take the reader to the end of the log. -/
theorem exists_reads_to_end {s : LogSystem} {o : ℕ} (h : Inv s o) :
    ∃ t, Relation.ReflTransGen Read s t ∧ t.log = s.log ∧ t.visited = s.log.landed := by
  induction hd : o-s.loop.pos.segment generalizing s with
  | zero =>
    obtain ⟨t,hst,ht,hlog,hseg,hend⟩ := h.drain
    have heq : s.loop.pos.segment = o := by
      have hr := h.range
      omega
    refine ⟨t,.single hst,hlog,?_⟩
    have hnil : logFrom (t.log.store.contents o) t.loop.pos = [] := by
      have hdrop : (t.log.store.contents o).drop (t.loop.pos.segment+1) = [] :=
        List.drop_eq_nil_of_le (by simp [hseg,heq])
      rw [logFrom,hdrop,SegmentStore.contents_getD _ (by omega),hlog,hseg,
        List.drop_eq_nil_of_le hend]
      rfl
    have hsplit := ht.split
    rw [hnil,List.append_nil,hlog] at hsplit
    exact hsplit.symm
  | succ d ih =>
    obtain ⟨t,hst,ht,hlog,hseg,hend⟩ := h.drain
    rw [← hlog,← hseg] at hend
    obtain ⟨u,htu,hu,hlog',hseg'⟩ := ht.cross (by omega) hend
    obtain ⟨v,huv,hvlog,hvisited⟩ := ih hu (by omega)
    refine ⟨v,.head hst (.head htu huv),?_,?_⟩
    · rw [hvlog,hlog',hlog]
    · rw [hvisited,hlog',hlog]

/-- The change log is one continuous log: what the reader has visited is the appends of the log in order
up to where it is, it goes from a segment only to the next and only when it has read all of it, it hands
on no control envelope, and it can always go on to the end. -/
theorem one_log {s : LogSystem} (h : Reachable s) :
    (∃ ahead, s.log.landed = s.visited ++ ahead) ∧
    (∀ t, Read s t → t.loop.pos.segment = s.loop.pos.segment ∨
      t.loop.pos.segment = s.loop.pos.segment+1 ∧
        s.log.store.isClosed s.loop.pos.segment = true ∧
        (s.log.store.envelopes s.loop.pos.segment).length ≤ s.loop.pos.offset) ∧
    (∀ e ∈ s.handed, isControl e = false) ∧
    ∃ t, Relation.ReflTransGen Read s t ∧ t.log = s.log ∧ t.visited = s.log.landed := by
  obtain ⟨o,hinv⟩ := inv_of_reachable h
  refine ⟨⟨_,hinv.split⟩,?_,hinv.handed,exists_reads_to_end hinv⟩
  intro t ht
  cases ht with
  | read hn hclosed =>
    obtain ⟨-,-,⟨-,hpos⟩ | ⟨hc,hend,hpos⟩⟩ := hinv.read hn hclosed
    · exact .inl (by rw [hpos])
    · exact .inr ⟨by rw [hpos,LogPosition.startOf],hclosed hc,hend⟩

end LogSystem

namespace ChangeLog

def sampleChange (key : String) : Envelope :=
  ⟨"public.t",key,none,none,⟨"insert",some "7",some "0/9",some 0,some true⟩⟩

/-- A log whose first rotation was abandoned behind its pointer, and the second behind its close. -/
def sample : ChangeLog where
  store
    | 0 => some ⟨[sampleChange "a",rotationEnvelope 1,sampleChange "b",rotationEnvelope 1],true⟩
    | 1 => some ⟨[sampleChange "c"],false⟩
    | _+2 => none
  recorded := none
  current := 1
  rotating := .idle
  landed := [sampleChange "a",sampleChange "b",sampleChange "c"]

lemma sample_written : Relation.ReflTransGen Write init sample := by
  have hchange : ∀ key, ∀ e ∈ [sampleChange key], isControl e = false := by
    intro key e he
    rw [List.mem_singleton.mp he]
    rfl
  refine .head (@Write.appendCommit _ [sampleChange "a"] _ rfl (hchange "a") rfl) ?_
  refine .head (.create _ rfl) (.head (.point _ rfl rfl) (.head (.fail _) ?_))
  refine .head (@Write.appendCommit _ [sampleChange "b"] _ rfl (hchange "b") rfl) ?_
  refine .head (.create _ rfl) (.head (.point _ rfl rfl) (.head (.close _ rfl) ?_))
  refine .head (@Write.restart _ 1 rfl) ?_
  refine .head (@Write.appendCommit _ [sampleChange "c"] _ rfl (hchange "c") rfl) ?_
  have hsample : ∀ s : ChangeLog, s.store = sample.store → s.recorded = none → s.current = 1 →
      s.rotating = .idle → s.landed = sample.landed → Relation.ReflTransGen Write s sample := by
    rintro ⟨_,_,_,_,_⟩ rfl rfl rfl rfl rfl
    exact .refl
  refine hsample _ ?_ rfl rfl rfl rfl
  funext n
  match n with
  | 0 => rfl
  | 1 => rfl
  | _+2 => rfl

end ChangeLog

namespace LogSystem

lemma reachable_of_written {l : ChangeLog} (h : Relation.ReflTransGen ChangeLog.Write .init l) :
    Reachable { init with log := l } := by
  induction h with
  | refl => exact .refl
  | tail _ hw ih => exact ih.tail (.write hw)

/-- A reader that has read the first segment of the sample in two pages and gone on to the second. -/
def sample : LogSystem := (({ init with log := .sample }.read 3 false).read 5 true).read 1 true

lemma sample_reachable : Reachable sample := by
  have hlog : Reachable { init with log := .sample } := reachable_of_written ChangeLog.sample_written
  refine ((hlog.tail (.read (.read _ ?_ ?_))).tail (.read (.read _ ?_ ?_))).tail
    (.read (.read _ ?_ ?_))
  all_goals decide +kernel

theorem sample_one_log :
    sample.visited.map (·.key) = ["a","b"] ∧ sample.loop.pos = .startOf 1 ∧
    (∃ ahead, sample.log.landed = sample.visited ++ ahead) ∧
    ∃ t, Relation.ReflTransGen Read sample t ∧ t.visited = sample.log.landed := by
  obtain ⟨hahead,-,-,t,hst,-,hvisited⟩ := one_log sample_reachable
  exact ⟨by decide +kernel,by decide +kernel,hahead,t,hst,hvisited⟩

end LogSystem
end ElectricCircuits
