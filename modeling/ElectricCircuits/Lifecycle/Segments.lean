import ElectricCircuits.Lib.AssocMap
import ElectricCircuits.Sequencer.Page
import Mathlib.Data.Prod.Lex
import Mathlib.Logic.Function.Basic
import Mathlib.Logic.Relation

/-! The deletion of change-log segments: one sweep takes its decision from values that it reads one after
the other, while shapes go dormant and come back, consumers pin and unpin, the sequencer starts and
advances, and the log rotates. -/
namespace ElectricCircuits

/-- Positions of the change log in log order. -/
def LogPosition.rank (p : LogPosition) : ℕ ×ₗ ℕ := toLex (p.segment,p.offset)

lemma LogPosition.segment_le_of_rank_le {p q : LogPosition} (h : p.rank ≤ q.rank) :
    p.segment ≤ q.segment := by
  rcases Prod.Lex.le_iff.mp h with h | h
  · exact h.le
  · exact h.1.le

/-- Who holds a segment: a shape, or an external consumer. -/
inductive PinHolder where
  | shape (id : String)
  | consumer (id : String)
  deriving DecidableEq

structure SegmentPin where
  holder : PinHolder
  segment : ℕ
  evictable : Bool

structure SegmentPlan where
  evict : List PinHolder
  delete : List ℕ

/-- When a segment's successor became current. -/
def rotatedOutAt (segments : List (ℕ × ℕ)) (current n : ℕ) : Option ℕ :=
  if current ≤ n then none else (segments.find? (·.1 == n+1)).map (·.2)

def SegmentPin.stale (segments : List (ℕ × ℕ)) (current retain now : ℕ) (pin : SegmentPin) : Bool :=
  pin.evictable && retain != 0 &&
    (rotatedOutAt segments current pin.segment).any fun at_ => retain ≤ now-at_

/-- The pins to release by an eviction, and the segments that nothing else needs. -/
def planSegmentDeletion (segments : List (ℕ × ℕ)) (current checkpoint : ℕ) (pins : List SegmentPin)
    (retain now : ℕ) : SegmentPlan :=
  let stale := SegmentPin.stale segments current retain now
  let alive := pins.filter (!stale ·)
  let minNeeded := (alive.map (·.segment)).foldl min checkpoint
  { evict := (pins.filter stale).map (·.holder)
    delete := (segments.map (·.1)).filter fun n => n < minNeeded && n < current }

/-- A shape's lifecycle. Once the sequencer has answered a deactivation, the answer is on its way with the
resume position. -/
inductive LifeState where
  | active
  | deactivating (resume : Option LogPosition)
  | dormant (resume : LogPosition)
  | reactivating (resume : LogPosition)

namespace LifeState

def resume : LifeState → Option LogPosition
  | active => none
  | deactivating resume => resume
  | dormant resume | reactivating resume => some resume

def isDeactivating : LifeState → Bool
  | deactivating _ => true
  | _ => false

/-- The pin of a shape, by what the sweep may do about it. -/
def pin (id : String) : LifeState → Option SegmentPin
  | dormant resume => some ⟨.shape id,resume.segment,true⟩
  | reactivating resume => some ⟨.shape id,resume.segment,false⟩
  | active | deactivating _ => none

/-- What happens to a shape, apart from the end of a deactivation. -/
inductive Step (sequencer : Option LogPosition) : Option LifeState → Option LifeState → Prop where
  | created : Step sequencer none (some active)
  | deactivate : Step sequencer (some active) (some (deactivating none))
  | captured {p : LogPosition} (h : sequencer = some p) :
    Step sequencer (some (deactivating none)) (some (deactivating (some p)))
  | left : Step sequencer (some (deactivating none)) (some active)
  | reactivate {resume : LogPosition} :
    Step sequencer (some (dormant resume)) (some (reactivating resume))
  | reactivated {resume : LogPosition} : Step sequencer (some (reactivating resume)) (some active)
  | failed {resume : LogPosition} :
    Step sequencer (some (reactivating resume)) (some (dormant resume))
  | removed {l : LifeState} : Step sequencer (some l) none

end LifeState

/-- Where the sweep is, with the values that it has read. -/
inductive Sweep where
  | idle
  | begun (current : ℕ)
  | looked (current : ℕ) (hasSequencer : Bool)
  | behind (current : ℕ) (target : LogPosition)
  | moved (current : ℕ) (target : LogPosition)
  | ready (current : ℕ)
  | evicting (ids : List PinHolder) (evictedAll : Bool)
  | readLives (evictedAll : Bool) (pins : List SegmentPin)
  | readPins (evictedAll : Bool) (pins : List SegmentPin)
  | readSegments (evictedAll : Bool) (pins : List SegmentPin) (segments : List (ℕ × ℕ))
  | readCurrent (evictedAll : Bool) (pins : List SegmentPin) (segments : List (ℕ × ℕ)) (current : ℕ)
  | planned (evictedAll : Bool) (delete : List ℕ)
  | deleting (delete : List ℕ)
  | forgetting (segment : ℕ) (delete : List ℕ)

/-- A consumer's pin that was checked and is not registered yet. It is lost once its segment has been deleted, since the
check or, with the segment still among the known ones, before it. -/
structure PinCheck where
  id : String
  position : LogPosition
  lost : Bool

/-- What the deletion of segments reads and writes. `durable` is the greatest checkpoint that has landed,
`landed` the last one, which a restart goes on from. -/
structure Retention where
  current : ℕ
  starts : List (ℕ × ℕ)
  stored : ℕ → Bool
  sequencer : Option LogPosition
  seqStart : LogPosition
  durable : Option LogPosition
  landed : Option LogPosition
  queued : List LogPosition
  lives : AssocMap String LifeState
  consumers : AssocMap String LogPosition
  pending : List PinCheck
  sweep : Sweep

namespace Retention

/-- The steps that a condition will be put on, and the others. -/
inductive Event where
  | spawn
  | pinned (check : PinCheck)
  | parked (resume : LogPosition)
  | deleteFails
  | other

/-- The checkpoint's segment; before the first one it reads as segment 0. -/
def floor (s : Retention) : ℕ := s.durable.elim 0 (·.segment)

/-- The checked pins after the deletion of a segment. -/
def lose (s : Retention) (n : ℕ) : List PinCheck :=
  s.pending.map fun c => { c with lost := c.lost || c.position.segment == n }

def setLife (s : Retention) (id : String) (l : Option LifeState) : Retention :=
  { s with lives := l.elim (s.lives.erase id) (s.lives.insert id) }

def livePins (s : Retention) : List SegmentPin := s.lives.entries.filterMap fun e => e.2.pin e.1

def consumerPins (s : Retention) : List SegmentPin :=
  s.consumers.entries.map fun e => ⟨.consumer e.1,e.2.segment,true⟩

/-- One step of the sweep or of what runs beside it. -/
inductive Step (retain : ℕ) : Retention → Event → Retention → Prop where
  | rotate (s : Retention) (now : ℕ) :
    Step retain s .other { s with
      current := s.current+1
      starts := s.starts ++ [(s.current+1,now)]
      stored := Function.update s.stored (s.current+1) true }
  | spawn (s : Retention) (h : s.sequencer = none) :
    Step retain s .spawn { s with sequencer := some s.seqStart }
  | advance (s : Retention) {p q : LogPosition} (hp : s.sequencer = some p) (hq : p.rank ≤ q.rank)
    (hcurrent : q.segment ≤ s.current) : Step retain s .other { s with sequencer := some q }
  | checkpoint (s : Retention) {p : LogPosition} (hp : s.sequencer = some p) :
    Step retain s .other { s with queued := s.queued ++ [p] }
  | land (s : Retention) {p : LogPosition} {ps : List LogPosition} (h : s.queued = p::ps) :
    Step retain s .other { s with
      queued := ps
      landed := some p
      durable := if s.durable.all (·.rank < p.rank) then some p else s.durable }
  | life (s : Retention) (id : String) {l : Option LifeState}
    (h : LifeState.Step s.sequencer (s.lives.get? id) l) : Step retain s .other (s.setLife id l)
  | parked (s : Retention) {id : String} {resume : LogPosition}
    (h : s.lives.get? id = some (.deactivating (some resume))) :
    Step retain s (.parked resume) (s.setLife id (some (.dormant resume)))
  | pinChecked (s : Retention) {id : String} {p : LogPosition} (hcurrent : p.segment ≤ s.current)
    (hretained : p.segment = s.current ∨ p.segment ∈ s.starts.map Prod.fst)
    (hforward : ∀ old ∈ s.consumers.get? id, ¬p.rank < old.rank) :
    Step retain s .other { s with
      pending := s.pending ++
        [⟨id,p,(s.starts.map Prod.fst).contains p.segment && !s.stored p.segment⟩] }
  | pinned (s : Retention) {c : PinCheck} {before after : List PinCheck}
    (h : s.pending = before ++ c::after) :
    Step retain s (.pinned c) { s with
      pending := before ++ after
      consumers := s.consumers.insert c.id c.position }
  | unpinned (s : Retention) (id : String) :
    Step retain s .other { s with consumers := s.consumers.erase id }
  | begin_ (s : Retention) (h : s.sweep = .idle) :
    Step retain s .other { s with sweep := .begun s.current }
  | look (s : Retention) {current : ℕ} (h : s.sweep = .begun current) :
    Step retain s .other { s with sweep := .looked current s.sequencer.isSome }
  | goOn (s : Retention) {current : ℕ} (h : s.sweep = .looked current true) :
    Step retain s .other { s with sweep := .ready current }
  | compare (s : Retention) {current : ℕ} (h : s.sweep = .looked current false) :
    Step retain s .other { s with
      sweep :=
        if s.durable.all (·.rank < (LogPosition.startOf current).rank) then
          .behind current (.startOf current)
        else .ready current }
  | move (s : Retention) {current : ℕ} {target : LogPosition} (h : s.sweep = .behind current target) :
    Step retain s .other { s with seqStart := target, sweep := .moved current target }
  | send (s : Retention) {current : ℕ} {target : LogPosition} (h : s.sweep = .moved current target) :
    Step retain s .other { s with queued := s.queued ++ [target], sweep := .ready current }
  /- The first plan only proposes evictions, which look again: its values may be of any time. -/
  | plan (s : Retention) {current : ℕ} (h : s.sweep = .ready current) (segments : List (ℕ × ℕ))
    (checkpoint : ℕ) (pins : List SegmentPin) (now : ℕ) :
    Step retain s .other { s with
      sweep := .evicting (planSegmentDeletion segments current checkpoint pins retain now).evict true }
  | evictConsumer (s : Retention) {id : String} {ids : List PinHolder} {evictedAll : Bool}
    (h : s.sweep = .evicting (.consumer id::ids) evictedAll) :
    Step retain s .other { s with
      consumers := s.consumers.erase id
      sweep := .evicting ids evictedAll }
  | evictShape (s : Retention) {id : String} {ids : List PinHolder} {evictedAll : Bool}
    (h : s.sweep = .evicting (.shape id::ids) evictedAll) :
    Step retain s .other
      (match s.lives.get? id with
      | none => { s with sweep := .evicting ids evictedAll }
      | some (.dormant _) => { s.setLife id none with sweep := .evicting ids evictedAll }
      | some _ => { s with sweep := .evicting ids false })
  | evictFails (s : Retention) {id : PinHolder} {ids : List PinHolder} {evictedAll : Bool}
    (h : s.sweep = .evicting (id::ids) evictedAll) :
    Step retain s .other { s with sweep := .evicting ids false }
  | readLives (s : Retention) {evictedAll : Bool} (h : s.sweep = .evicting [] evictedAll) :
    Step retain s .other { s with sweep := .readLives evictedAll s.livePins }
  | readConsumers (s : Retention) {evictedAll : Bool} {pins : List SegmentPin}
    (h : s.sweep = .readLives evictedAll pins) :
    Step retain s .other { s with sweep := .readPins evictedAll (pins ++ s.consumerPins) }
  | readSegments (s : Retention) {evictedAll : Bool} {pins : List SegmentPin}
    (h : s.sweep = .readPins evictedAll pins) :
    Step retain s .other { s with sweep := .readSegments evictedAll pins s.starts }
  | readCurrent (s : Retention) {evictedAll : Bool} {pins : List SegmentPin} {segments : List (ℕ × ℕ)}
    (h : s.sweep = .readSegments evictedAll pins segments) :
    Step retain s .other { s with sweep := .readCurrent evictedAll pins segments s.current }
  | replan (s : Retention) {evictedAll : Bool} {pins : List SegmentPin} {segments : List (ℕ × ℕ)}
    {current : ℕ} (h : s.sweep = .readCurrent evictedAll pins segments current) (now : ℕ) :
    Step retain s .other { s with
      sweep := .planned evictedAll (planSegmentDeletion segments current s.floor pins 0 now).delete }
  | decide_ (s : Retention) {evictedAll : Bool} {delete : List ℕ}
    (h : s.sweep = .planned evictedAll delete) :
    Step retain s .other { s with
      sweep :=
        if !evictedAll || s.lives.values.any (·.isDeactivating) then .idle else .deleting delete }
  | delete (s : Retention) {n : ℕ} {ns : List ℕ} (h : s.sweep = .deleting (n::ns)) :
    Step retain s .other { s with
      stored := Function.update s.stored n false
      pending := s.lose n
      sweep := .forgetting n ns }
  | forget (s : Retention) {n : ℕ} {ns : List ℕ} (h : s.sweep = .forgetting n ns) :
    Step retain s .other { s with
      starts := s.starts.filter (·.1 != n)
      sweep := .deleting ns }
  /- Storage refuses a deletion, or makes it and the answer is lost. -/
  | deleteFails (s : Retention) {n : ℕ} {ns : List ℕ} (h : s.sweep = .deleting (n::ns)) (made : Bool) :
    Step retain s .deleteFails { s with
      stored := if made then Function.update s.stored n false else s.stored
      pending := if made then s.lose n else s.pending
      sweep := .deleting ns }
  | end_ (s : Retention) (h : s.sweep = .deleting []) :
    Step retain s .other { s with sweep := .idle }

/-- Something is in the segment or has yet to pass it: the checkpoint, the sequencer or the position that
one would start at, a shape's resume position, or a consumer. -/
def Needs (s : Retention) (n : ℕ) : Prop :=
  s.landed.elim 0 (·.segment) ≤ n ∨ (s.sequencer.getD s.seqStart).segment ≤ n ∨
  (∃ id l, s.lives.get? id = some l ∧ ∃ p ∈ l.resume, p.segment ≤ n) ∨
  ∃ id p, s.consumers.get? id = some p ∧ p.segment ≤ n

/-- No segment is gone that something needs. -/
def Safe (s : Retention) : Prop := ∀ n ≤ s.current, s.Needs n → s.stored n = true

/-- The segments that are there are the latest ones, without a gap. -/
def Chain (s : Retention) : Prop :=
  ∀ m n, m ≤ n → n ≤ s.current → s.stored m = true → s.stored n = true

end Retention

namespace Sweep

/-- Whatever the sweep may still delete, as far as it has read, is before `n`: for a shape's position,
which it reads first, and for a consumer's. -/
def sparesShape : Sweep → ℕ → Bool
  | readLives evictedAll pins,n | readPins evictedAll pins,n | readSegments evictedAll pins _,n =>
    !evictedAll || pins.any (·.segment ≤ n)
  | readCurrent evictedAll pins _ current,n =>
    !evictedAll || pins.any (·.segment ≤ n) || current ≤ n
  | planned evictedAll delete,n => !evictedAll || delete.all (· < n)
  | deleting delete,n | forgetting _ delete,n => delete.all (· < n)
  | _,_ => true

def sparesConsumer : Sweep → ℕ → Bool
  | readLives _ _,_ => true
  | sweep,n => sweep.sparesShape n

/-- A shape that is deactivating puts the deletion off until it is decided on. -/
def sparesCaptured : Sweep → ℕ → Bool
  | deleting delete,n | forgetting _ delete,n => delete.all (· < n)
  | _,_ => true

/-- The sweep has seen no sequencer, and not yet queued the checkpoint that one would start at. -/
def startsSequencer : Sweep → Bool
  | looked _ false | behind _ _ | moved _ _ => true
  | _ => false

end Sweep

namespace Retention

/-- The condition on a step: the sequencer is not started while a sweep moves its start; a consumer's pin
is not registered after a deletion of its segment, and not in a segment that the sweep deletes; a shape does
not go dormant before a segment that the sweep, having read the shapes, may delete; and a deletion fails only
as the last of its sweep. -/
def Allowed (s : Retention) : Event → Prop
  | .spawn => s.sweep.startsSequencer = false
  | .pinned c => c.lost = false ∧ s.sweep.sparesConsumer c.position.segment = true
  | .parked p => s.sweep.sparesShape p.segment = true
  | .deleteFails => ∃ n, s.sweep = .deleting [n]
  | .other => True

/-- A run whose steps all meet the condition. -/
def GuardedSteps (retain : ℕ) : Retention → Retention → Prop :=
  Relation.ReflTransGen fun s t => ∃ e, s.Allowed e ∧ Step retain s e t

/-- A boot: nothing runs, the known segments are those that are there, and none is gone that something
needs. -/
structure Boot (s : Retention) : Prop where
  sequencer : s.sequencer = none
  queued : s.queued = []
  pending : s.pending = []
  sweep : s.sweep = .idle
  landed : s.landed = s.durable
  start : s.durable = some s.seqStart ∨ s.durable = none ∧ s.seqStart = .startOf 0
  known : ∃ o ≤ s.current, s.starts.map Prod.fst = List.range' o (s.current+1-o) ∧
    ∀ n, s.stored n = true ↔ o ≤ n ∧ n ≤ s.current
  safe : s.Safe

/-- What holds of a shape's positions when the first segment is `o` and the sweep is at `w`. -/
def LifeOk (o : ℕ) (w : Sweep) : LifeState → Prop
  | .active | .deactivating none => True
  | .deactivating (some r) => o ≤ r.segment ∧ w.sparesCaptured r.segment = true
  | .dormant r | .reactivating r => o ≤ r.segment ∧ w.sparesShape r.segment = true

def PinOk (o : ℕ) (w : Sweep) (p : LogPosition) : Prop :=
  o ≤ p.segment ∧ w.sparesConsumer p.segment = true

/-- The start position is not behind segment `c`, or is the checkpoint. -/
def StartsBefore (s : Retention) (c : ℕ) : Prop :=
  s.seqStart.rank ≤ (LogPosition.startOf c).rank ∨ ∃ d ∈ s.durable, s.seqStart.rank ≤ d.rank

/-- What holds while a sweep may move the start position. -/
def StartInv (s : Retention) : Prop :=
  match s.sweep with
  | .begun c => c ≤ s.current ∧ (s.sequencer = none → s.StartsBefore c)
  | .looked c false => c ≤ s.current ∧ s.sequencer = none ∧ s.StartsBefore c
  | .behind c t => c ≤ s.current ∧ s.sequencer = none ∧ t = .startOf c ∧ s.seqStart.rank ≤ t.rank
  | .moved c t => c ≤ s.current ∧ s.sequencer = none ∧ t = .startOf c ∧ s.seqStart = t
  | _ => s.sequencer = none → s.StartsBefore s.current

/-- The deletions that are decided on are the first of the known segments, all before the checkpoint and
the current segment. -/
def DeleteInv (s : Retention) (first : ℕ) (delete : List ℕ) : Prop :=
  (∃ len, delete = List.range' first len) ∧ ∀ n ∈ delete, n < s.floor ∧ n < s.current

def PlanInv (s : Retention) (o first : ℕ) : Prop :=
  match s.sweep with
  | .readSegments _ _ segments => ∃ len, segments.map Prod.fst = List.range' first len
  | .readCurrent _ _ segments c => (∃ len, segments.map Prod.fst = List.range' first len) ∧ c ≤ s.current
  | .planned _ delete | .deleting delete => s.DeleteInv first delete
  | .forgetting n delete => n = first ∧ first+1 ≤ o ∧ s.DeleteInv (first+1) delete
  | _ => True

/-- What holds at any time, `o` being the first segment that is there and `first` the first known one. -/
structure Inv (s : Retention) (o first : ℕ) : Prop where
  le : o ≤ s.current
  known : first ≤ o
  stored : ∀ n, s.stored n = true ↔ o ≤ n ∧ n ≤ s.current
  starts : s.starts.map Prod.fst = List.range' first (s.current+1-first)
  floor : o ≤ s.floor
  landed : s.landed = s.durable
  sorted : (s.durable.toList ++ s.queued).Pairwise (·.rank ≤ ·.rank)
  frontier : ∀ p ∈ s.durable.toList ++ s.queued, p.rank ≤ (s.sequencer.getD s.seqStart).rank
  start : s.StartInv
  lives : ∀ id l, s.lives.get? id = some l → LifeOk o s.sweep l
  consumers : ∀ id p, s.consumers.get? id = some p → PinOk o s.sweep p
  plan : s.PlanInv o first

lemma LifeOk.imp {o o' : ℕ} {w w' : Sweep} {l : LifeState} (h : LifeOk o w l)
    (hshape : ∀ n, o ≤ n → w.sparesShape n = true → o' ≤ n ∧ w'.sparesShape n = true)
    (hcaptured : ∀ n, o ≤ n → w.sparesCaptured n = true → o' ≤ n ∧ w'.sparesCaptured n = true) :
    LifeOk o' w' l := by
  match l,h with
  | .active,_ | .deactivating none,_ => trivial
  | .deactivating (some r),h => exact hcaptured _ h.1 h.2
  | .dormant r,h | .reactivating r,h => exact hshape _ h.1 h.2

/-- The segments that are safe in a state are what the invariant says. -/
lemma Inv.safe {s : Retention} {o first : ℕ} (h : Inv s o first) : s.Safe ∧ s.Chain := by
  have hfloor : s.landed.elim 0 (·.segment) = s.floor := by rw [h.landed,Retention.floor]
  have hfrontier : s.floor ≤ (s.sequencer.getD s.seqStart).segment := by
    rw [Retention.floor]
    cases hd : s.durable with
    | none => exact Nat.zero_le _
    | some d => exact LogPosition.segment_le_of_rank_le (h.frontier d (by simp [hd]))
  refine ⟨fun n hn hneeds => (h.stored n).mpr ⟨?_,hn⟩,fun m n hm hn hst => ?_⟩
  · rcases hneeds with hl | hs | ⟨id,l,hl,p,hp,hle⟩ | ⟨id,p,hp,hle⟩
    · exact h.floor.trans (hfloor ▸ hl)
    · exact h.floor.trans (hfrontier.trans hs)
    · have hok := h.lives id l hl
      refine le_trans ?_ hle
      match l,hok,hp with
      | .deactivating (some r),hok,rfl => exact hok.1
      | .dormant r,hok,rfl | .reactivating r,hok,rfl => exact hok.1
    · exact (h.consumers id p hp).1.trans hle
  · exact (h.stored n).mpr ⟨((h.stored m).mp hst).1.trans hm,hn⟩

lemma inv_of_boot {s : Retention} (h : Boot s) : ∃ o, Inv s o o := by
  obtain ⟨o,hle,hstarts,hstored⟩ := h.known
  have hneeds : ∀ n ≤ s.current, s.Needs n → o ≤ n := fun n hn hne =>
    ((hstored n).mp (h.safe n hn hne)).1
  -- a position that something is at cannot be before the first segment
  have hat : ∀ n, (∀ m, n ≤ m → s.Needs m) → o ≤ n := by
    intro n hn
    by_contra hlt
    exact hlt (hneeds n (by omega) (hn n le_rfl))
  have hfloor : o ≤ s.floor := hat _ fun m hm => .inl (by rw [h.landed]; exact hm)
  refine ⟨o,hle,le_rfl,hstored,hstarts,hfloor,h.landed,?_,?_,?_,?_,?_,?_⟩
  · rw [h.queued,List.append_nil]
    cases s.durable <;> simp
  · intro p hp
    rw [h.queued,List.append_nil] at hp
    rw [h.sequencer]
    rcases h.start with hd | ⟨hd,-⟩
    · rw [hd,Option.toList_some,List.mem_singleton] at hp
      rw [hp]
      rfl
    · simp [hd] at hp
  · rw [StartInv,h.sweep]
    intro _
    rcases h.start with hd | ⟨-,hs⟩
    · exact .inr ⟨_,hd,le_rfl⟩
    · left
      rw [hs]
      exact Prod.Lex.toLex_mono ⟨Nat.zero_le _,le_rfl⟩
  · intro id l hl
    rw [h.sweep]
    match l,hl with
    | .active,_ | .deactivating none,_ => trivial
    | .deactivating (some r),hl =>
      exact ⟨hat _ fun m hm => .inr (.inr (.inl ⟨id,_,hl,r,rfl,hm⟩)),rfl⟩
    | .dormant r,hl | .reactivating r,hl =>
      exact ⟨hat _ fun m hm => .inr (.inr (.inl ⟨id,_,hl,r,rfl,hm⟩)),rfl⟩
  · intro id p hp
    rw [h.sweep]
    exact ⟨hat _ fun m hm => .inr (.inr (.inr ⟨id,p,hp,hm⟩)),rfl⟩
  · rw [PlanInv,h.sweep]
    trivial

section
variable {s : Retention} {o first : ℕ}

/-- The sweep goes on to its next value. -/
lemma Inv.goto (h : Inv s o first) {w : Sweep} (hstart : StartInv { s with sweep := w })
    (hlives : ∀ id l, s.lives.get? id = some l → LifeOk o s.sweep l → LifeOk o w l)
    (hconsumers : ∀ id p, s.consumers.get? id = some p → PinOk o s.sweep p → PinOk o w p)
    (hplan : PlanInv { s with sweep := w } o first) : Inv { s with sweep := w } o first where
  le := h.le
  known := h.known
  stored := h.stored
  starts := h.starts
  floor := h.floor
  landed := h.landed
  sorted := h.sorted
  frontier := h.frontier
  start := hstart
  lives := fun id l hl => hlives id l hl (h.lives id l hl)
  consumers := fun id p hp => hconsumers id p hp (h.consumers id p hp)
  plan := hplan

/-- A part of the sweep that has read nothing of the pins yet. -/
lemma LifeOk.unread {w w' : Sweep} {l : LifeState} (h : LifeOk o w l)
    (hshape : ∀ n, w'.sparesShape n = true) (hcaptured : ∀ n, w'.sparesCaptured n = true) :
    LifeOk o w' l :=
  h.imp (fun n hn _ => ⟨hn,hshape n⟩) fun n hn _ => ⟨hn,hcaptured n⟩

lemma PinOk.unread {w w' : Sweep} {p : LogPosition} (h : PinOk o w p)
    (hconsumer : ∀ n, w'.sparesConsumer n = true) : PinOk o w' p := ⟨h.1,hconsumer _⟩

lemma Inv.gotoUnread (h : Inv s o first) {w : Sweep} (hstart : StartInv { s with sweep := w })
    (hshape : ∀ n, w.sparesShape n = true) (hcaptured : ∀ n, w.sparesCaptured n = true)
    (hconsumer : ∀ n, w.sparesConsumer n = true)
    (hplan : PlanInv { s with sweep := w } o first) : Inv { s with sweep := w } o first :=
  h.goto hstart (fun _ _ _ hok => hok.unread hshape hcaptured) (fun _ _ _ hok => hok.unread hconsumer)
    hplan

lemma Inv.setLife (h : Inv s o first) (id : String) {l : Option LifeState}
    (hl : ∀ l' ∈ l, LifeOk o s.sweep l') : Inv (s.setLife id l) o first where
  le := h.le
  known := h.known
  stored := h.stored
  starts := h.starts
  floor := h.floor
  landed := h.landed
  sorted := h.sorted
  frontier := h.frontier
  start := h.start
  lives := by
    intro id' l' hl'
    have hget : (s.setLife id l).lives.get? id' = if (id == id') = true then l else s.lives.get? id' := by
      cases l with
      | none => exact s.lives.get?_erase id id'
      | some l => exact s.lives.get?_insert id id' l
    rw [hget] at hl'
    split_ifs at hl' with hid
    · exact hl l' hl'
    · exact h.lives id' l' hl'
  consumers := h.consumers
  plan := h.plan

lemma Inv.setConsumers (h : Inv s o first) {consumers : AssocMap String LogPosition}
    {pending : List PinCheck} (hc : ∀ id p, consumers.get? id = some p → PinOk o s.sweep p) :
    Inv { s with consumers, pending } o first where
  le := h.le
  known := h.known
  stored := h.stored
  starts := h.starts
  floor := h.floor
  landed := h.landed
  sorted := h.sorted
  frontier := h.frontier
  start := h.start
  lives := h.lives
  consumers := hc
  plan := h.plan

lemma Inv.eraseConsumer (h : Inv s o first) (id : String) :
    Inv { s with consumers := s.consumers.erase id } o first := by
  refine h.setConsumers fun id' p hp => ?_
  rw [AssocMap.get?_erase] at hp
  split_ifs at hp
  exact h.consumers id' p hp

/-- A shape's step keeps its positions, and a captured position is not behind the checkpoint. -/
lemma Inv.life (h : Inv s o first) {id : String} {l : Option LifeState}
    (hl : LifeState.Step s.sequencer (s.lives.get? id) l) : Inv (s.setLife id l) o first := by
  refine h.setLife id ?_
  generalize hid : s.lives.get? id = old at hl
  rintro l' rfl
  cases hl with
  | created => trivial
  | deactivate => trivial
  | left => trivial
  | @captured p hp =>
    have hfloor : s.floor ≤ p.segment := by
      rw [Retention.floor]
      cases hd : s.durable with
      | none => exact Nat.zero_le _
      | some d =>
        have hle := h.frontier d (by simp [hd])
        rw [hp] at hle
        exact LogPosition.segment_le_of_rank_le hle
    refine ⟨h.floor.trans hfloor,?_⟩
    have hplan := h.plan
    rw [PlanInv] at hplan
    cases hw : s.sweep with
    | deleting delete =>
      rw [hw] at hplan
      exact List.all_eq_true.mpr fun n hn => by simpa using (hplan.2 n hn).1.trans_le hfloor
    | forgetting n delete =>
      rw [hw] at hplan
      exact List.all_eq_true.mpr fun n hn => by simpa using (hplan.2.2.2 n hn).1.trans_le hfloor
    | _ => rfl
  | @reactivate r =>
    have hok : LifeOk o s.sweep (.dormant r) := h.lives id _ hid
    exact hok
  | reactivated => trivial
  | @failed r =>
    have hok : LifeOk o s.sweep (.reactivating r) := h.lives id _ hid
    exact hok

lemma StartsBefore.mono {c c' : ℕ} (h : s.StartsBefore c) (hc : c ≤ c') : s.StartsBefore c' := by
  refine h.imp_left fun h => h.trans ?_
  exact Prod.Lex.toLex_mono ⟨hc,le_rfl⟩

lemma DeleteInv.mono {t : Retention} {delete : List ℕ} (h : s.DeleteInv first delete)
    (hfloor : s.floor ≤ t.floor) (hcurrent : s.current ≤ t.current) : t.DeleteInv first delete :=
  ⟨h.1,fun n hn => ⟨(h.2 n hn).1.trans_le hfloor,(h.2 n hn).2.trans_le hcurrent⟩⟩

lemma PlanInv.mono {t : Retention} (h : s.PlanInv o first) (hsweep : t.sweep = s.sweep)
    (hfloor : s.floor ≤ t.floor) (hcurrent : s.current ≤ t.current) : t.PlanInv o first := by
  rw [PlanInv] at h ⊢
  rw [hsweep]
  cases hw : s.sweep with
  | readSegments =>
    rw [hw] at h
    exact h
  | readCurrent =>
    rw [hw] at h
    exact ⟨h.1,h.2.trans hcurrent⟩
  | planned =>
    rw [hw] at h
    exact h.mono hfloor hcurrent
  | deleting =>
    rw [hw] at h
    exact h.mono hfloor hcurrent
  | forgetting =>
    rw [hw] at h
    exact ⟨h.1,h.2.1,h.2.2.mono hfloor hcurrent⟩
  | _ => trivial

/-- The start is kept as the checkpoint and the log go on. -/
lemma StartInv.mono {t : Retention} (h : s.StartInv) (hsweep : t.sweep = s.sweep)
    (hsequencer : t.sequencer = s.sequencer) (hstart : t.seqStart = s.seqStart)
    (hcurrent : s.current ≤ t.current) (hdurable : ∀ d ∈ s.durable, ∃ d' ∈ t.durable, d.rank ≤ d'.rank) :
    t.StartInv := by
  have hbefore : ∀ {c c'}, s.StartsBefore c → c ≤ c' → t.StartsBefore c' := by
    rintro c c' hs hc
    rcases hs.mono hc with hs | ⟨d,hd,hs⟩
    · exact .inl (hstart ▸ hs)
    · obtain ⟨d',hd',hle⟩ := hdurable d hd
      exact .inr ⟨d',hd',hstart ▸ hs.trans hle⟩
  rw [StartInv] at h ⊢
  rw [hsweep,hsequencer,hstart]
  cases hw : s.sweep with
  | begun c =>
    rw [hw] at h
    exact ⟨h.1.trans hcurrent,fun hs => hbefore (h.2 hs) le_rfl⟩
  | looked c seen =>
    rw [hw] at h
    cases seen with
    | false => exact ⟨h.1.trans hcurrent,h.2.1,hbefore h.2.2 le_rfl⟩
    | true => exact fun hs => hbefore (h hs) hcurrent
  | behind c t =>
    rw [hw] at h
    exact ⟨h.1.trans hcurrent,h.2⟩
  | moved c t =>
    rw [hw] at h
    exact ⟨h.1.trans hcurrent,h.2⟩
  | _ =>
    rw [hw] at h
    exact fun hs => hbefore (h hs) hcurrent

lemma Inv.rotate (h : Inv s o first) (now : ℕ) : Inv { s with
    current := s.current+1
    starts := s.starts ++ [(s.current+1,now)]
    stored := Function.update s.stored (s.current+1) true } o first where
  le := h.le.trans (Nat.le_succ _)
  known := h.known
  stored := by
    intro n
    have hle := h.le
    rcases eq_or_ne n (s.current+1) with rfl | hn
    · simp only [Function.update_self,true_iff]
      omega
    · dsimp only
      rw [Function.update_of_ne hn,h.stored]
      omega
  starts := by
    have hfirst : first ≤ s.current+1 := h.known.trans (h.le.trans (Nat.le_succ _))
    have hlen : s.current+1+1-first = (s.current+1-first)+1 := by omega
    rw [List.map_append,h.starts,List.map_singleton,hlen,List.range'_concat,mul_comm]
    simp [hfirst]
  floor := h.floor
  landed := h.landed
  sorted := h.sorted
  frontier := h.frontier
  start := h.start.mono rfl rfl rfl (Nat.le_succ _) fun d hd => ⟨d,hd,le_rfl⟩
  lives := h.lives
  consumers := h.consumers
  plan := h.plan.mono rfl le_rfl (Nat.le_succ _)

/-- The sequencer starts when no sweep is about to move its start. -/
lemma Inv.spawn (h : Inv s o first) (hs : s.sequencer = none)
    (hallowed : s.sweep.startsSequencer = false) :
    Inv { s with sequencer := some s.seqStart } o first where
  le := h.le
  known := h.known
  stored := h.stored
  starts := h.starts
  floor := h.floor
  landed := h.landed
  sorted := h.sorted
  frontier := by
    have hf := h.frontier
    rwa [hs] at hf
  start := by
    have hst := h.start
    rw [StartInv] at hst ⊢
    cases hw : s.sweep with
    | begun c =>
      rw [hw] at hst
      exact ⟨hst.1,nofun⟩
    | looked c seen =>
      cases seen with
      | false => simp [hw,Sweep.startsSequencer] at hallowed
      | true => nofun
    | behind => simp [hw,Sweep.startsSequencer] at hallowed
    | moved => simp [hw,Sweep.startsSequencer] at hallowed
    | _ => nofun
  lives := h.lives
  consumers := h.consumers
  plan := h.plan

lemma StartInv.sequencer {p : LogPosition} (h : s.StartInv) (hs : s.sequencer = some p)
    {t : Retention} (hsweep : t.sweep = s.sweep) (ht : ∃ q, t.sequencer = some q)
    (hcurrent : t.current = s.current) : t.StartInv := by
  obtain ⟨q,hq⟩ := ht
  rw [StartInv] at h ⊢
  rw [hsweep,hcurrent,hq]
  cases hw : s.sweep with
  | begun c =>
    rw [hw] at h
    exact ⟨h.1,nofun⟩
  | looked c seen =>
    rw [hw] at h
    cases seen with
    | false => exact absurd (hs.symm.trans h.2.1) nofun
    | true => nofun
  | behind =>
    rw [hw] at h
    exact absurd (hs.symm.trans h.2.1) nofun
  | moved =>
    rw [hw] at h
    exact absurd (hs.symm.trans h.2.1) nofun
  | _ => nofun

/-- The sequencer goes on, or queues its position. -/
lemma Inv.advance (h : Inv s o first) {p q : LogPosition} (hp : s.sequencer = some p)
    (hq : p.rank ≤ q.rank) : Inv { s with sequencer := some q } o first where
  le := h.le
  known := h.known
  stored := h.stored
  starts := h.starts
  floor := h.floor
  landed := h.landed
  sorted := h.sorted
  frontier := by
    intro d hd
    have hle := h.frontier d hd
    rw [hp] at hle
    exact hle.trans hq
  start := h.start.sequencer hp rfl ⟨q,rfl⟩ rfl
  lives := h.lives
  consumers := h.consumers
  plan := h.plan

lemma sorted_concat {xs ys : List LogPosition} {p : LogPosition}
    (h : (xs ++ ys).Pairwise (·.rank ≤ ·.rank)) (hp : ∀ q ∈ xs ++ ys, q.rank ≤ p.rank) :
    (xs ++ (ys ++ [p])).Pairwise (·.rank ≤ ·.rank) := by
  rw [← List.append_assoc,List.pairwise_append]
  exact ⟨h,List.pairwise_singleton _ _,fun q hq p' hp' => List.mem_singleton.mp hp' ▸ hp q hq⟩

lemma Inv.checkpoint (h : Inv s o first) {p : LogPosition} (hp : s.sequencer = some p) :
    Inv { s with queued := s.queued ++ [p] } o first where
  le := h.le
  known := h.known
  stored := h.stored
  starts := h.starts
  floor := h.floor
  landed := h.landed
  sorted := sorted_concat h.sorted fun q hq => by simpa [hp] using h.frontier q hq
  frontier := by
    intro q hq
    rw [← List.append_assoc] at hq
    rcases List.mem_append.mp hq with hq | hq
    · exact h.frontier q hq
    · rw [List.mem_singleton.mp hq,hp]
      rfl
  start := h.start
  lives := h.lives
  consumers := h.consumers
  plan := h.plan

/-- The checkpoint that lands is not behind the one before it. -/
lemma Inv.land (h : Inv s o first) {p : LogPosition} {ps : List LogPosition} (hq : s.queued = p::ps) :
    Inv { s with
      queued := ps
      landed := some p
      durable := if s.durable.all (·.rank < p.rank) then some p else s.durable } o first := by
  have hsorted := h.sorted
  have hfrontier := h.frontier
  rw [hq] at hsorted hfrontier
  have hle : ∀ d ∈ s.durable, d.rank ≤ p.rank := fun d hd =>
    (List.pairwise_append.mp hsorted).2.2 d (by simpa using hd) p (.head _)
  have hdurable : (if s.durable.all (·.rank < p.rank) then some p else s.durable) = some p := by
    split_ifs with hall
    · rfl
    · cases hd : s.durable with
      | none => simp [hd] at hall
      | some d =>
        have hge : p.rank ≤ d.rank := by simpa [hd] using hall
        have heq : d.rank = p.rank := le_antisymm (hle d hd) hge
        obtain ⟨ds,doff⟩ := d
        obtain ⟨ps,poff⟩ := p
        have hpair := toLex.injective heq
        simp only [Prod.mk.injEq] at hpair
        rw [hpair.1,hpair.2]
  rw [hdurable]
  have hfloor : s.floor ≤ p.segment := by
    rw [Retention.floor]
    cases hd : s.durable with
    | none => exact Nat.zero_le _
    | some d => exact LogPosition.segment_le_of_rank_le (hle d hd)
  exact {
    le := h.le
    known := h.known
    stored := h.stored
    starts := h.starts
    floor := h.floor.trans hfloor
    landed := rfl
    sorted := (List.pairwise_append.mp hsorted).2.1
    frontier := fun d hd => hfrontier d (List.mem_append_right _ hd)
    start := h.start.mono rfl rfl rfl le_rfl fun d hd => ⟨p,rfl,hle d hd⟩
    lives := h.lives
    consumers := h.consumers
    plan := h.plan.mono rfl hfloor le_rfl }

lemma Inv.parked (h : Inv s o first) {id : String} {resume : LogPosition}
    (hl : s.lives.get? id = some (.deactivating (some resume)))
    (hallowed : s.sweep.sparesShape resume.segment = true) :
    Inv (s.setLife id (some (.dormant resume))) o first := by
  refine h.setLife id ?_
  rintro l' ⟨⟩
  have hok : LifeOk o s.sweep (.deactivating (some resume)) := h.lives id _ hl
  exact ⟨hok.1,hallowed⟩

lemma Inv.pinned (h : Inv s o first) {id : String} {p : LogPosition} {pending : List PinCheck}
    (hstored : s.stored p.segment = true) (hspares : s.sweep.sparesConsumer p.segment = true) :
    Inv { s with consumers := s.consumers.insert id p, pending } o first := by
  refine h.setConsumers fun id' q hq => ?_
  rw [AssocMap.get?_insert] at hq
  split_ifs at hq
  · rw [← Option.some.inj hq]
    exact ⟨((h.stored _).mp hstored).1,hspares⟩
  · exact h.consumers id' q hq

/-- The part of the sweep before its first plan. -/
def Beginning : Sweep → Bool
  | .begun _ | .looked _ _ | .behind _ _ | .moved _ _ => true
  | _ => false

lemma startInv_iff (hw : Beginning s.sweep = false) :
    s.StartInv ↔ (s.sequencer = none → s.StartsBefore s.current) := by
  rw [StartInv]
  cases h : s.sweep <;> first | rfl | simp [h,Beginning] at hw

lemma StartInv.goto (h : s.StartInv) {w : Sweep} (hw : Beginning s.sweep = false)
    (hw' : Beginning w = false) : StartInv { s with sweep := w } :=
  (startInv_iff hw').mpr ((startInv_iff hw).mp h)

/-- The sweep looks whether there is a sequencer, and if there is none moves its start. -/
lemma Inv.begin_ (h : Inv s o first) (hw : s.sweep = .idle) :
    Inv { s with sweep := .begun s.current } o first := by
  have hfree : Beginning s.sweep = false := by rw [hw]; rfl
  have hstart := (startInv_iff hfree).mp h.start
  exact h.gotoUnread ⟨le_rfl,hstart⟩ (fun _ => rfl) (fun _ => rfl) (fun _ => rfl) trivial

lemma Inv.look (h : Inv s o first) {current : ℕ} (hw : s.sweep = .begun current) :
    Inv { s with sweep := .looked current s.sequencer.isSome } o first := by
  have hst := h.start
  rw [StartInv,hw] at hst
  cases hseen : s.sequencer.isSome with
  | false =>
    have hs : s.sequencer = none := by simpa using hseen
    exact h.gotoUnread ⟨hst.1,hs,hst.2 hs⟩ (fun _ => rfl) (fun _ => rfl) (fun _ => rfl) trivial
  | true =>
    refine h.gotoUnread (fun hn => ?_) (fun _ => rfl) (fun _ => rfl) (fun _ => rfl) trivial
    have hs : s.sequencer = none := hn
    simp [hs] at hseen

lemma Inv.goOn (h : Inv s o first) {current : ℕ} (hw : s.sweep = .looked current true) :
    Inv { s with sweep := .ready current } o first := by
  refine h.gotoUnread ?_ (fun _ => rfl) (fun _ => rfl) (fun _ => rfl) trivial
  have hst := h.start
  rw [StartInv,hw] at hst
  exact hst

lemma Inv.compare (h : Inv s o first) {current : ℕ} (hw : s.sweep = .looked current false) :
    Inv { s with
      sweep :=
        if s.durable.all (·.rank < (LogPosition.startOf current).rank) then
          .behind current (.startOf current)
        else .ready current } o first := by
  have hst := h.start
  rw [StartInv,hw] at hst
  obtain ⟨hle,hs,hbefore⟩ := hst
  split_ifs with hall
  · refine h.gotoUnread ⟨hle,hs,rfl,?_⟩ (fun _ => rfl) (fun _ => rfl) (fun _ => rfl) trivial
    rcases hbefore with hb | ⟨d,hd,hb⟩
    · exact hb
    · have hlt : d.rank < (LogPosition.startOf current).rank := by
        rw [Option.mem_def.mp hd] at hall
        simpa using hall
      exact hb.trans hlt.le
  · exact h.gotoUnread (fun _ => hbefore.mono hle) (fun _ => rfl) (fun _ => rfl) (fun _ => rfl) trivial

lemma Inv.move (h : Inv s o first) {current : ℕ} {target : LogPosition}
    (hw : s.sweep = .behind current target) :
    Inv { s with seqStart := target, sweep := .moved current target } o first := by
  have hst := h.start
  rw [StartInv,hw] at hst
  obtain ⟨hle,hs,htarget,hrank⟩ := hst
  exact {
    le := h.le
    known := h.known
    stored := h.stored
    starts := h.starts
    floor := h.floor
    landed := h.landed
    sorted := h.sorted
    frontier := by
      intro p hp
      have hle := h.frontier p hp
      rw [hs] at hle ⊢
      exact hle.trans hrank
    start := ⟨hle,hs,htarget,rfl⟩
    lives := fun id l hl => (h.lives id l hl).unread (fun _ => rfl) fun _ => rfl
    consumers := fun id p hp => (h.consumers id p hp).unread fun _ => rfl
    plan := trivial }

lemma Inv.send (h : Inv s o first) {current : ℕ} {target : LogPosition}
    (hw : s.sweep = .moved current target) :
    Inv { s with queued := s.queued ++ [target], sweep := .ready current } o first := by
  have hst := h.start
  rw [StartInv,hw] at hst
  obtain ⟨hle,hs,htarget,hstart⟩ := hst
  have hfrontier : ∀ q ∈ s.durable.toList ++ s.queued, q.rank ≤ target.rank := by
    intro q hq
    have hle := h.frontier q hq
    rwa [hs,Option.getD_none,hstart] at hle
  exact {
    le := h.le
    known := h.known
    stored := h.stored
    starts := h.starts
    floor := h.floor
    landed := h.landed
    sorted := sorted_concat h.sorted hfrontier
    frontier := by
      intro q hq
      rw [hs,Option.getD_none,hstart]
      rw [← List.append_assoc] at hq
      rcases List.mem_append.mp hq with hq | hq
      · exact hfrontier q hq
      · rw [List.mem_singleton.mp hq]
    start := by
      intro _
      left
      rw [hstart,htarget]
      exact Prod.Lex.toLex_mono ⟨hle,le_rfl⟩
    lives := fun id l hl => (h.lives id l hl).unread (fun _ => rfl) fun _ => rfl
    consumers := fun id p hp => (h.consumers id p hp).unread fun _ => rfl
    plan := trivial }

lemma Inv.evictShape (h : Inv s o first) {id : String} {ids : List PinHolder} {evictedAll : Bool}
    (hw : s.sweep = .evicting (.shape id::ids) evictedAll) :
    Inv (match s.lives.get? id with
      | none => { s with sweep := .evicting ids evictedAll }
      | some (.dormant _) => { s.setLife id none with sweep := .evicting ids evictedAll }
      | some _ => { s with sweep := .evicting ids false }) o first := by
  have hfree : Beginning s.sweep = false := by rw [hw]; rfl
  have hgoto : ∀ {t : Retention} (_ : Inv t o first) (_ : t.sweep = s.sweep) (evictedAll : Bool),
      Inv { t with sweep := .evicting ids evictedAll } o first := by
    intro t ht hsweep evictedAll
    exact ht.gotoUnread (ht.start.goto (hsweep ▸ hfree) rfl) (fun _ => rfl) (fun _ => rfl) (fun _ => rfl)
      trivial
  split
  · exact hgoto h rfl _
  · exact hgoto (h.setLife id (by simp)) rfl _
  · exact hgoto h rfl _

/-- The shapes that could be behind the deletion are pinned as the sweep reads them. -/
lemma Inv.readLives (h : Inv s o first) {evictedAll : Bool} (hw : s.sweep = .evicting [] evictedAll) :
    Inv { s with sweep := .readLives evictedAll s.livePins } o first := by
  have hfree : Beginning s.sweep = false := by rw [hw]; rfl
  refine h.goto (h.start.goto hfree rfl) (fun id l hl hok => ?_) (fun _ _ _ hok => hok.unread fun _ => rfl)
    trivial
  have hspared : ∀ pin ∈ l.pin id,
      (Sweep.readLives evictedAll s.livePins).sparesShape pin.segment = true := by
    intro pin hpin
    have hmem : pin ∈ s.livePins :=
      List.mem_filterMap.mpr ⟨(id,l),(s.lives.mem_entries id l).mpr hl,hpin⟩
    have hany : s.livePins.any (·.segment ≤ pin.segment) = true :=
      List.any_eq_true.mpr ⟨pin,hmem,by simp⟩
    rw [Sweep.sparesShape,hany,Bool.or_true]
  match l,hok with
  | .active,_ | .deactivating none,_ => trivial
  | .deactivating (some r),hok => exact ⟨hok.1,rfl⟩
  | .dormant r,hok | .reactivating r,hok => exact ⟨hok.1,hspared _ rfl⟩

lemma Inv.readConsumers (h : Inv s o first) {evictedAll : Bool} {pins : List SegmentPin}
    (hw : s.sweep = .readLives evictedAll pins) :
    Inv { s with sweep := .readPins evictedAll (pins ++ s.consumerPins) } o first := by
  have hfree : Beginning s.sweep = false := by rw [hw]; rfl
  refine h.goto (h.start.goto hfree rfl) (fun id l hl hok => ?_) (fun id p hp hok => ⟨hok.1,?_⟩) trivial
  · refine hok.imp (fun n hn hspares => ⟨hn,?_⟩) fun n hn _ => ⟨hn,rfl⟩
    rw [hw,Sweep.sparesShape,Bool.or_eq_true] at hspares
    rw [Sweep.sparesShape,List.any_append,Bool.or_eq_true,Bool.or_eq_true]
    exact hspares.imp_right .inl
  · have hmem : (⟨.consumer id,p.segment,true⟩ : SegmentPin) ∈ s.consumerPins :=
      List.mem_map.mpr ⟨(id,p),(s.consumers.mem_entries id p).mpr hp,rfl⟩
    have hany : (pins ++ s.consumerPins).any (·.segment ≤ p.segment) = true :=
      List.any_eq_true.mpr ⟨_,List.mem_append_right _ hmem,by simp⟩
    rw [Sweep.sparesConsumer,Sweep.sparesShape,hany,Bool.or_true]
    rintro _ _ ⟨⟩

/-- The last reads leave what is spared. -/
lemma Inv.gotoRead (h : Inv s o first) {w : Sweep} (hw : Beginning s.sweep = false)
    (hw' : Beginning w = false) (hread : ∀ evictedAll pins, s.sweep ≠ .readLives evictedAll pins)
    (hshape : ∀ n, s.sweep.sparesShape n = true → w.sparesShape n = true)
    (hcaptured : ∀ n, w.sparesCaptured n = true) (hplan : PlanInv { s with sweep := w } o first) :
    Inv { s with sweep := w } o first := by
  refine h.goto (h.start.goto hw hw')
    (fun _ _ _ hok => hok.imp (fun n hn hs => ⟨hn,hshape n hs⟩) fun n hn _ => ⟨hn,hcaptured n⟩)
    (fun _ p _ hok => ⟨hok.1,?_⟩) hplan
  have hs : s.sweep.sparesShape p.segment = true := by
    have hc := hok.2
    cases hsw : s.sweep with
    | readLives evictedAll pins => exact absurd hsw (hread _ _)
    | _ =>
      rw [hsw] at hc
      exact hc
  have hws := hshape _ hs
  cases w <;> first | exact hws | rfl

lemma foldl_min_le (xs : List ℕ) (b : ℕ) :
    xs.foldl min b ≤ b ∧ ∀ x ∈ xs, xs.foldl min b ≤ x := by
  induction xs generalizing b with
  | nil => simp
  | cons x xs ih =>
    obtain ⟨hb,hxs⟩ := ih (min b x)
    exact ⟨hb.trans (min_le_left _ _),
      List.forall_mem_cons.mpr ⟨hb.trans (min_le_right _ _),hxs⟩⟩

/-- The second plan deletes, of the known segments, those before every pin, the checkpoint and the
current one. -/
lemma mem_plan_delete {segments : List (ℕ × ℕ)} {current checkpoint now n : ℕ} {pins : List SegmentPin}
    (hn : n ∈ (planSegmentDeletion segments current checkpoint pins 0 now).delete) :
    n < checkpoint ∧ n < current ∧ ∀ pin ∈ pins, n < pin.segment := by
  simp only [planSegmentDeletion,List.mem_filter,Bool.and_eq_true,decide_eq_true_eq] at hn
  obtain ⟨-,hmin,hcurrent⟩ := hn
  have hle := foldl_min_le ((pins.filter fun pin =>
    !SegmentPin.stale segments current 0 now pin).map (·.segment)) checkpoint
  refine ⟨hmin.trans_le hle.1,hcurrent,fun pin hpin => hmin.trans_le (hle.2 _ ?_)⟩
  exact List.mem_map.mpr ⟨pin,List.mem_filter.mpr ⟨hpin,by simp [SegmentPin.stale]⟩,rfl⟩

lemma filter_lt_range' (first len b : ℕ) :
    ∃ len', (List.range' first len).filter (fun n => n < b) = List.range' first len' := by
  induction len generalizing first with
  | zero => exact ⟨0,rfl⟩
  | succ len ih =>
    obtain ⟨len',hlen⟩ := ih (first+1)
    rw [List.range'_succ]
    by_cases hb : first < b
    · refine ⟨len'+1,?_⟩
      rw [List.filter_cons_of_pos (by simpa using hb),hlen,List.range'_succ]
    · refine ⟨0,List.filter_eq_nil_iff.mpr fun n hn => ?_⟩
      have hle : first ≤ n := by
        rw [← List.range'_succ] at hn
        exact (List.mem_range'_1.mp hn).1
      simpa using hle.trans' (Nat.not_lt.mp hb)

lemma Inv.replan (h : Inv s o first) {evictedAll : Bool} {pins : List SegmentPin}
    {segments : List (ℕ × ℕ)} {current : ℕ}
    (hw : s.sweep = .readCurrent evictedAll pins segments current) (now : ℕ) :
    Inv { s with
      sweep := .planned evictedAll (planSegmentDeletion segments current s.floor pins 0 now).delete }
      o first := by
  have hplan := h.plan
  rw [PlanInv,hw] at hplan
  obtain ⟨⟨len,hsegments⟩,hcurrent⟩ := hplan
  refine h.gotoRead (by rw [hw]; rfl) rfl (by simp [hw]) (fun n hn => ?_) (fun _ => rfl) ⟨?_,?_⟩
  · rw [hw,Sweep.sparesShape] at hn
    simp only [Bool.or_eq_true,List.any_eq_true,decide_eq_true_eq] at hn
    simp only [Sweep.sparesShape,Bool.or_eq_true,List.all_eq_true,decide_eq_true_eq]
    rcases hn with (hn | ⟨pin,hpin,hn⟩) | hn
    · exact .inl hn
    · exact .inr fun k hk => ((mem_plan_delete hk).2.2 pin hpin).trans_le hn
    · exact .inr fun k hk => (mem_plan_delete hk).2.1.trans_le hn
  · simp only [planSegmentDeletion,hsegments]
    obtain ⟨len',hlen⟩ := filter_lt_range' first len (min (List.foldl min s.floor
      ((pins.filter fun pin => !SegmentPin.stale segments current 0 now pin).map (·.segment))) current)
    refine ⟨len',?_⟩
    rw [← hlen]
    exact List.filter_congr fun n _ => by simp
  · intro n hn
    obtain ⟨hfloor,hlt,-⟩ := mem_plan_delete hn
    exact ⟨hfloor,hlt.trans_le hcurrent⟩

lemma Inv.decide_ (h : Inv s o first) {evictedAll : Bool} {delete : List ℕ}
    (hw : s.sweep = .planned evictedAll delete) :
    Inv { s with
      sweep := if !evictedAll || s.lives.values.any (·.isDeactivating) then .idle else .deleting delete }
      o first := by
  have hfree : Beginning s.sweep = false := by rw [hw]; rfl
  have hplan := h.plan
  rw [PlanInv,hw] at hplan
  split_ifs with hdefer
  · exact h.gotoUnread (h.start.goto hfree rfl) (fun _ => rfl) (fun _ => rfl) (fun _ => rfl) trivial
  · simp only [Bool.or_eq_true,Bool.not_eq_true',not_or,Bool.not_eq_false] at hdefer
    obtain ⟨hall,hnone⟩ := hdefer
    have hspares : ∀ n, (Sweep.planned evictedAll delete).sparesShape n = true →
        (Sweep.deleting delete).sparesShape n = true := by
      intro n hn
      rwa [Sweep.sparesShape,hall,Bool.not_true,Bool.false_or] at hn
    refine h.goto (h.start.goto hfree rfl) (fun id l hl hok => ?_) (fun _ p _ hok => ⟨hok.1,?_⟩) hplan
    · rw [hw] at hok
      match l,hok,hl with
      | .active,_,_ | .deactivating none,_,_ => trivial
      | .deactivating (some r),_,hl =>
        have hmem : LifeState.deactivating (some r) ∈ s.lives.values :=
          List.mem_map.mpr ⟨(id,_),(s.lives.mem_entries id _).mpr hl,rfl⟩
        exact absurd (List.any_eq_true.mpr ⟨_,hmem,rfl⟩) hnone
      | .dormant r,hok,_ | .reactivating r,hok,_ => exact ⟨hok.1,hspares _ hok.2⟩
    · have hs := hok.2
      rw [hw] at hs
      exact hspares _ hs

/-- What follows when the first segment of a deletion is gone. -/
lemma Inv.deleted (h : Inv s o first) {ns : List ℕ} (hw : s.sweep = .deleting (first::ns)) {w : Sweep}
    (hfree : Beginning w = false)
    (hshape : ∀ n, ns.all (· < n) = true → w.sparesShape n = true)
    (hcaptured : ∀ n, ns.all (· < n) = true → w.sparesCaptured n = true)
    (hplan : ∀ t : Retention, t.sweep = w → DeleteInv t (first+1) ns → t.PlanInv (max o (first+1)) first) :
    Inv { s with stored := Function.update s.stored first false, sweep := w } (max o (first+1)) first := by
  have hdelete := h.plan
  rw [PlanInv,hw] at hdelete
  obtain ⟨⟨len,hlen⟩,hbounds⟩ := hdelete
  have hhead := hbounds first (.head _)
  have hidle : Beginning s.sweep = false := by rw [hw]; rfl
  have hstart := (startInv_iff hidle).mp h.start
  have hns : ∃ len, ns = List.range' (first+1) len := by
    cases len with
    | zero => cases hlen
    | succ len =>
      rw [List.range'_succ] at hlen
      exact ⟨len,(List.cons.inj hlen).2⟩
  have hspared : ∀ n, (Sweep.deleting (first::ns)).sparesShape n = true →
      first < n ∧ ns.all (· < n) = true := by
    intro n hn
    simpa [Sweep.sparesShape] using hn
  exact {
    le := max_le h.le hhead.2
    known := h.known.trans (le_max_left _ _)
    stored := by
      intro n
      have hknown := h.known
      dsimp only
      rcases eq_or_ne n first with rfl | hn
      · simp
      · rw [Function.update_of_ne hn,h.stored]
        omega
    starts := h.starts
    floor := max_le h.floor hhead.1
    landed := h.landed
    sorted := h.sorted
    frontier := h.frontier
    start := (startInv_iff hfree).mpr hstart
    lives := by
      intro id l hl
      have hok := h.lives id l hl
      rw [hw] at hok
      refine hok.imp (fun n hn hs => ?_) fun n hn hs => ?_
      · obtain ⟨hlt,hall⟩ := hspared n hs
        exact ⟨max_le hn hlt,hshape n hall⟩
      · obtain ⟨hlt,hall⟩ := hspared n hs
        exact ⟨max_le hn hlt,hcaptured n hall⟩
    consumers := by
      intro id p hp
      have hok := h.consumers id p hp
      rw [hw] at hok
      obtain ⟨hlt,hall⟩ := hspared _ hok.2
      refine ⟨max_le hok.1 hlt,?_⟩
      have hs := hshape _ hall
      cases w <;> first | exact hs | rfl
    plan := hplan _ rfl ⟨hns,fun n hn => hbounds n (.tail _ hn)⟩ }

lemma head_of_deleting (h : Inv s o first) {n : ℕ} {ns : List ℕ} (hw : s.sweep = .deleting (n::ns)) :
    n = first := by
  have hdelete := h.plan
  rw [PlanInv,hw] at hdelete
  obtain ⟨⟨len,hlen⟩,-⟩ := hdelete
  cases len with
  | zero => cases hlen
  | succ len =>
    rw [List.range'_succ] at hlen
    exact (List.cons.inj hlen).1

/-- A segment is deleted in storage, and then forgotten. -/
lemma Inv.delete (h : Inv s o first) {n : ℕ} {ns : List ℕ} (hw : s.sweep = .deleting (n::ns)) :
    ∃ o', Inv { s with stored := Function.update s.stored n false, sweep := .forgetting n ns } o' first := by
  obtain rfl := head_of_deleting h hw
  refine ⟨_,h.deleted hw rfl (fun _ hall => hall) (fun _ hall => hall) fun t ht hdelete => ?_⟩
  rw [PlanInv,ht]
  exact ⟨rfl,le_max_right _ _,hdelete⟩

lemma Inv.forget (h : Inv s o first) {n : ℕ} {ns : List ℕ} (hw : s.sweep = .forgetting n ns) :
    Inv { s with starts := s.starts.filter (·.1 != n), sweep := .deleting ns } o (first+1) := by
  have hplan := h.plan
  rw [PlanInv,hw] at hplan
  obtain ⟨rfl,hknown,hdelete⟩ := hplan
  have hidle : Beginning s.sweep = false := by rw [hw]; rfl
  have hstart := (startInv_iff hidle).mp h.start
  have hstarts : (s.starts.filter (·.1 != n)).map Prod.fst = List.range' (n+1) (s.current+1-(n+1)) := by
    have hle := h.known.trans h.le
    have hlen : s.current+1-n = s.current+1-(n+1)+1 := by omega
    have hmap : (s.starts.filter (·.1 != n)).map Prod.fst = (s.starts.map Prod.fst).filter (· != n) := by
      rw [List.filter_map]
      rfl
    rw [hmap,h.starts,hlen,List.range'_succ,List.filter_cons_of_neg (by simp)]
    refine List.filter_eq_self.mpr fun k hk => ?_
    have hlt := (List.mem_range'_1.mp hk).1
    simpa using (Nat.lt_of_succ_le hlt).ne'
  exact {
    le := h.le
    known := hknown
    stored := h.stored
    starts := hstarts
    floor := h.floor
    landed := h.landed
    sorted := h.sorted
    frontier := h.frontier
    start := hstart
    lives := by
      intro id l hl
      have hok := h.lives id l hl
      rw [hw] at hok
      exact hok.imp (fun _ hn hs => ⟨hn,hs⟩) fun _ hn hs => ⟨hn,hs⟩
    consumers := by
      intro id p hp
      have hok := h.consumers id p hp
      rw [hw] at hok
      exact hok
    plan := hdelete }

/-- The last deletion of a sweep may fail, made or not. -/
lemma Inv.deleteFails (h : Inv s o first) {n : ℕ} (hw : s.sweep = .deleting [n]) (made : Bool) :
    ∃ o', Inv { s with
      stored := if made then Function.update s.stored n false else s.stored
      sweep := .deleting [] } o' first := by
  obtain rfl := head_of_deleting h hw
  have hnil : ∀ (t : Retention) (first : ℕ), DeleteInv t first [] := fun t first => ⟨⟨0,rfl⟩,by simp⟩
  cases made with
  | true =>
    refine ⟨_,h.deleted hw rfl (fun _ _ => rfl) (fun _ _ => rfl) fun t ht _ => ?_⟩
    rw [PlanInv,ht]
    exact hnil t n
  | false =>
    have hidle : Beginning s.sweep = false := by rw [hw]; rfl
    exact ⟨o,h.gotoUnread (h.start.goto hidle rfl) (fun _ => rfl) (fun _ => rfl) (fun _ => rfl)
      (hnil _ n)⟩

end

/-- A checked pin has its segment, unless it was deleted. -/
def Checked (s : Retention) : Prop := ∀ c ∈ s.pending, c.lost = false → s.stored c.position.segment = true

lemma Checked.lose {s : Retention} (h : s.Checked) (n : ℕ) {c : PinCheck} (hc : c ∈ s.lose n)
    (hlost : c.lost = false) : Function.update s.stored n false c.position.segment = true := by
  obtain ⟨c',hc',rfl⟩ := List.mem_map.mp hc
  obtain ⟨hold,hne⟩ := Bool.or_eq_false_iff.mp hlost
  rw [Function.update_of_ne (by simpa using hne)]
  exact h c' hc' hold

/-- The check of a pin finds its segment among the known ones. -/
lemma checked_step {retain : ℕ} {s t : Retention} {o first : ℕ} {e : Event} (h : s.Checked)
    (hinv : Inv s o first) (hst : Step retain s e t) : t.Checked := by
  cases hst with
  | rotate now =>
    intro c hc hlost
    dsimp only
    rw [Function.update_apply]
    split_ifs
    · rfl
    · exact h c hc hlost
  | pinChecked hcurrent hretained hforward =>
    intro c hc hlost
    rcases List.mem_append.mp hc with hc | hc
    · exact h c hc hlost
    · obtain rfl := List.mem_singleton.mp hc
      rcases hretained with heq | hknown
      · exact (hinv.stored _).mpr ⟨heq ▸ hinv.le,heq.le⟩
      · simpa [hknown] using hlost
  | pinned hpending =>
    intro c hc hlost
    refine h c ?_ hlost
    rw [hpending]
    exact List.mem_append.mpr ((List.mem_append.mp hc).imp_right (List.mem_cons_of_mem _))
  | evictShape hw =>
    dsimp only
    split <;> exact h
  | delete hw => exact fun c hc hlost => h.lose _ hc hlost
  | deleteFails hw made =>
    cases made with
    | false => exact h
    | true => exact fun c hc hlost => h.lose _ hc hlost
  | _ => exact h

/-- A step that meets the condition keeps the invariant. -/
theorem inv_step {retain : ℕ} {s t : Retention} {o first : ℕ} {e : Event} (h : Inv s o first)
    (hchecked : s.Checked) (hallowed : s.Allowed e) (hst : Step retain s e t) : ∃ o' first', Inv t o' first' := by
  have hfree : ∀ {w : Sweep}, s.sweep = w → Beginning w = false → Beginning s.sweep = false :=
    fun hw hb => hw ▸ hb
  have hunread : ∀ {w : Sweep}, s.sweep = w → Beginning w = false → ∀ w', Beginning w' = false →
      (∀ n, w'.sparesShape n = true) → (∀ n, w'.sparesCaptured n = true) →
      (∀ n, w'.sparesConsumer n = true) → PlanInv { s with sweep := w' } o first →
      ∃ o' first', Inv { s with sweep := w' } o' first' :=
    fun hw hb w' hb' hs hc hp hplan =>
      ⟨o,first,h.gotoUnread (h.start.goto (hfree hw hb) hb') hs hc hp hplan⟩
  cases hst with
  | rotate now => exact ⟨o,first,h.rotate now⟩
  | spawn hs => exact ⟨o,first,h.spawn hs hallowed⟩
  | advance hp hq => exact ⟨o,first,h.advance hp hq⟩
  | checkpoint hp => exact ⟨o,first,h.checkpoint hp⟩
  | land hq => exact ⟨o,first,h.land hq⟩
  | life id hl => exact ⟨o,first,h.life hl⟩
  | parked hl => exact ⟨o,first,h.parked hl hallowed⟩
  | pinChecked => exact ⟨o,first,h.setConsumers h.consumers⟩
  | pinned hpending =>
    have hstored := hchecked _ (by rw [hpending]; exact List.mem_append_right _ (.head _)) hallowed.1
    exact ⟨o,first,h.pinned hstored hallowed.2⟩
  | unpinned id => exact ⟨o,first,h.eraseConsumer id⟩
  | begin_ hw => exact ⟨o,first,h.begin_ hw⟩
  | look hw => exact ⟨o,first,h.look hw⟩
  | goOn hw => exact ⟨o,first,h.goOn hw⟩
  | compare hw => exact ⟨o,first,h.compare hw⟩
  | move hw => exact ⟨o,first,h.move hw⟩
  | send hw => exact ⟨o,first,h.send hw⟩
  | plan hw =>
    exact hunread hw rfl _ rfl (fun _ => rfl) (fun _ => rfl) (fun _ => rfl) trivial
  | evictConsumer hw =>
    rename_i id ids evictedAll
    have hgoto := h.gotoUnread (w := .evicting ids evictedAll) (h.start.goto (hfree hw rfl) rfl)
      (fun _ => rfl) (fun _ => rfl) (fun _ => rfl) trivial
    exact ⟨o,first,hgoto.eraseConsumer id⟩
  | evictShape hw => exact ⟨o,first,h.evictShape hw⟩
  | evictFails hw =>
    exact hunread hw rfl _ rfl (fun _ => rfl) (fun _ => rfl) (fun _ => rfl) trivial
  | readLives hw => exact ⟨o,first,h.readLives hw⟩
  | readConsumers hw => exact ⟨o,first,h.readConsumers hw⟩
  | readSegments hw =>
    refine ⟨o,first,h.gotoRead (hfree hw rfl) rfl (by simp [hw]) (fun n hn => ?_) (fun _ => rfl)
      ⟨_,h.starts⟩⟩
    rw [hw] at hn
    exact hn
  | readCurrent hw =>
    have hplan := h.plan
    rw [PlanInv,hw] at hplan
    refine ⟨o,first,h.gotoRead (hfree hw rfl) rfl (by simp [hw]) (fun n hn => ?_) (fun _ => rfl)
      ⟨hplan,le_rfl⟩⟩
    rw [hw,Sweep.sparesShape] at hn
    rw [Sweep.sparesShape,hn,Bool.true_or]
  | replan hw now => exact ⟨o,first,h.replan hw now⟩
  | decide_ hw => exact ⟨o,first,h.decide_ hw⟩
  | delete hw =>
    obtain ⟨o',h'⟩ := h.delete hw
    exact ⟨o',first,h'.setConsumers h'.consumers⟩
  | forget hw => exact ⟨o,first+1,h.forget hw⟩
  | deleteFails hw made =>
    obtain ⟨n',hn'⟩ := hallowed
    obtain ⟨rfl,rfl⟩ : _ = n' ∧ _ = [] := by simpa using hw.symm.trans hn'
    obtain ⟨o',h'⟩ := h.deleteFails hw made
    exact ⟨o',first,h'.setConsumers h'.consumers⟩
  | end_ hw => exact hunread hw rfl _ rfl (fun _ => rfl) (fun _ => rfl) (fun _ => rfl) trivial

/-- In every run that meets the condition no segment is deleted that something needs, and the segments
go from the oldest on. -/
theorem segments_kept {retain : ℕ} {s t : Retention} (hs : s.Boot) (hrun : GuardedSteps retain s t) :
    t.Safe ∧ t.Chain := by
  have hinv : (∃ o first, Inv t o first) ∧ t.Checked := by
    induction hrun with
    | refl =>
      obtain ⟨o,h⟩ := inv_of_boot hs
      refine ⟨⟨o,o,h⟩,fun c hc => ?_⟩
      rw [hs.pending] at hc
      cases hc
    | tail _ hst ih =>
      obtain ⟨⟨o,first,h⟩,hchecked⟩ := ih
      obtain ⟨e,hallowed,hst⟩ := hst
      exact ⟨inv_step h hchecked hallowed hst,checked_step hchecked h hst⟩
  obtain ⟨⟨o,first,h⟩,-⟩ := hinv
  exact h.safe

/-- A first boot. -/
def fresh : Retention where
  current := 0
  starts := [(0,100)]
  stored := fun n => n == 0
  sequencer := none
  seqStart := .startOf 0
  durable := none
  landed := none
  queued := []
  lives := .empty
  consumers := .empty
  pending := []
  sweep := .idle

lemma boot_fresh : Boot fresh where
  sequencer := rfl
  queued := rfl
  pending := rfl
  sweep := rfl
  landed := rfl
  start := .inr ⟨rfl,rfl⟩
  known := ⟨0,le_rfl,rfl,fun n => by simp [fresh]⟩
  safe := by
    intro n hn _
    have hzero : n = 0 := Nat.le_zero.mp hn
    simp [fresh,hzero]

/-- A sequencer whose checkpoint in the second segment has landed, and a sweep that has decided to delete
the first one. -/
def sampleSweep : Retention where
  current := 1
  starts := [(0,100),(1,200)]
  stored := Function.update fresh.stored 1 true
  sequencer := some ⟨1,0⟩
  seqStart := .startOf 0
  durable := some ⟨1,0⟩
  landed := some ⟨1,0⟩
  queued := []
  lives := .empty
  consumers := .empty
  pending := []
  sweep := .deleting [0]

/-- A step without a condition. -/
lemma other {retain : ℕ} {s t u : Retention} (hst : Step retain s .other t)
    (h : GuardedSteps retain t u) : GuardedSteps retain s u := .head ⟨.other,trivial,hst⟩ h

lemma sampleSweep_steps : GuardedSteps 604800 fresh sampleSweep := by
  refine other (.rotate _ 200) (.head ⟨.spawn,rfl,.spawn _ rfl⟩ ?_)
  refine other (.advance (q := ⟨1,0⟩) _ rfl (by decide) le_rfl) ?_
  refine other (.checkpoint _ rfl) (other (.land _ rfl) ?_)
  refine other (.begin_ _ rfl) (other (.look _ rfl) (other (.goOn _ rfl) ?_))
  refine other (.plan _ rfl [(0,100),(1,200)] 1 [] 300) ?_
  refine other (.readLives _ rfl) (other (.readConsumers _ rfl) ?_)
  refine other (.readSegments _ rfl) (other (.readCurrent _ rfl) ?_)
  refine other (.replan _ rfl 300) (other (.decide_ _ rfl) ?_)
  have hend : ∀ s : Retention, s.current = 1 → s.starts = [(0,100),(1,200)] →
      s.stored = Function.update fresh.stored 1 true → s.sequencer = some ⟨1,0⟩ →
      s.seqStart = .startOf 0 → s.durable = some ⟨1,0⟩ → s.landed = some ⟨1,0⟩ → s.queued = [] →
      s.lives = .empty → s.consumers = .empty → s.pending = [] → s.sweep = .deleting [0] →
      GuardedSteps 604800 s sampleSweep := by
    rintro ⟨⟩ rfl rfl rfl rfl rfl rfl rfl rfl rfl rfl rfl rfl
    exact .refl
  exact hend _ rfl rfl rfl rfl rfl rfl rfl rfl rfl rfl rfl rfl

theorem sample_segments_kept :
    ∃ t, GuardedSteps 604800 fresh t ∧ t.stored 0 = false ∧ t.Safe ∧ t.Chain := by
  -- meanwhile a consumer pins the second segment
  have hchecked := @Step.pinChecked 604800 sampleSweep "kernel" ⟨1,0⟩ le_rfl (.inl rfl) nofun
  have hpinned := (sampleSweep_steps.tail ⟨.other,trivial,hchecked⟩).tail
    ⟨.pinned ⟨"kernel",⟨1,0⟩,false⟩,⟨rfl,rfl⟩,@Step.pinned 604800 _ ⟨"kernel",⟨1,0⟩,false⟩ [] [] rfl⟩
  have hrun := hpinned.tail ⟨.other,trivial,.delete _ rfl⟩
  exact ⟨_,hrun,rfl,segments_kept boot_fresh hrun⟩

/-- A consumer that pins the first segment between the decision to delete it and its deletion. -/
theorem sample_pin_deleted :
    ¬∀ t, Relation.ReflTransGen (fun s t => ∃ e, Step 604800 s e t) fresh t → t.Safe ∧ t.Chain := by
  intro h
  have hrun : Relation.ReflTransGen (fun s t => ∃ e, Step 604800 s e t) fresh sampleSweep :=
    Relation.ReflTransGen.mono (fun _ _ ⟨e,_,hst⟩ => ⟨e,hst⟩) _ _ sampleSweep_steps
  have hchecked := @Step.pinChecked 604800 sampleSweep "kernel" ⟨0,0⟩ (by decide) (.inr (by decide))
    nofun
  have hpinned := ((hrun.tail ⟨_,hchecked⟩).tail
    ⟨_,@Step.pinned 604800 _ ⟨"kernel",⟨0,0⟩,false⟩ [] [] rfl⟩).tail ⟨_,.delete _ rfl⟩
  have hstored := (h _ hpinned).1 0 (Nat.zero_le _)
    (.inr (.inr (.inr ⟨"kernel",⟨0,0⟩,rfl,le_rfl⟩)))
  cases hstored

end Retention
end ElectricCircuits
