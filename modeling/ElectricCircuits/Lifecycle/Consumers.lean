import ElectricCircuits.Lifecycle.Segments
import Mathlib.Data.String.Basic
import Mathlib.Data.List.Perm.Subperm

/-! The pins of external consumers: requests check, send and register a pin one after the other, the
catalog stores their events in its own time, a sweep deletes segments, the log rotates, and the engine
restarts from what the catalog has. -/
namespace ElectricCircuits

/-- A position as a consumer names it; the offset is a text. -/
structure ConsumerPosition where
  segment : ℕ
  offset : String
  deriving DecidableEq

def ConsumerPosition.rank (p : ConsumerPosition) : ℕ ×ₗ String := toLex (p.segment,p.offset)

def validConsumerId (id : String) : Bool :=
  id ≠ "" && id.utf8ByteSize ≤ 128 && id.toList.all fun c => c.isAlphanum || c == '_' || c == '-'

inductive ConsumerRequest where
  | pin (id : String) (position : ConsumerPosition)
  | remove (id : String)
  deriving DecidableEq

/-- The catalog's events about the segments of the change log and its consumers. -/
inductive ChangeLogEvent where
  | changesRotated (segment at_ : ℕ)
  | changesSegmentDeleted (segment : ℕ)
  | consumerPinned (id : String) (position : ConsumerPosition)
  | consumerEvicted (id : String)
  deriving DecidableEq

namespace ConsumerRequest

def id : ConsumerRequest → String
  | pin id _ | remove id => id

def event : ConsumerRequest → ChangeLogEvent
  | pin id position => .consumerPinned id position
  | remove id => .consumerEvicted id

/-- What a request does to the pins. -/
def apply (m : AssocMap String ConsumerPosition) : ConsumerRequest → AssocMap String ConsumerPosition
  | pin id position => m.insert id position
  | remove id => m.erase id

end ConsumerRequest

def ChangeLogEvent.request : ChangeLogEvent → Option ConsumerRequest
  | consumerPinned id position => some (.pin id position)
  | consumerEvicted id => some (.remove id)
  | changesRotated _ _ | changesSegmentDeleted _ => none

@[simp] lemma ConsumerRequest.request_event (r : ConsumerRequest) : r.event.request = some r := by
  cases r <;> rfl

/-- What the catalog's fold keeps of these events. -/
structure ChangeLogFold where
  currentSegment : ℕ
  segmentStarts : AssocMap ℕ ℕ
  consumers : AssocMap String ConsumerPosition

namespace ChangeLogFold

def empty : ChangeLogFold := ⟨0,.empty,.empty⟩

def apply (f : ChangeLogFold) : ChangeLogEvent → ChangeLogFold
  | .changesRotated segment at_ =>
    { f with
      currentSegment := max f.currentSegment segment
      segmentStarts := f.segmentStarts.insert segment at_ }
  | .changesSegmentDeleted segment => { f with segmentStarts := f.segmentStarts.erase segment }
  | .consumerPinned id position => { f with consumers := f.consumers.insert id position }
  | .consumerEvicted id => { f with consumers := f.consumers.erase id }

def known (f : ChangeLogFold) (n : ℕ) : Prop := (f.segmentStarts.get? n).isSome

end ChangeLogFold

def foldChangeLog (log : List ChangeLogEvent) : ChangeLogFold := log.foldl (·.apply ·) .empty

/-- An event on its way to the catalog, and whether a request waits for its answer. -/
structure QueuedEvent where
  ev : ChangeLogEvent
  waiting : Bool

/-- Where the ingestor is with a rotation: the successor is open, or also current, but not recorded. -/
inductive RotationPhase where
  | idle
  | closed
  | began
  deriving DecidableEq

/-- Where a boot is: the HTTP surface is up from its start. `read` is the log that the catalog's fold was
made from. -/
inductive PinBoot where
  | starting
  | folded (read : List ChangeLogEvent)
  | resolved (read : List ChangeLogEvent)
  | ready

/-- The consumers' pins in memory, in the catalog and on their way there, and the segments that they name.
`landed` has the requests whose event is stored and that have not registered, in the order of the log;
`taken` those that the pins in memory are made of. The open segment is the one that storage has not
closed; `lost` has the segments that storage deleted without the deletion being recorded, its answer or
the process having been lost. -/
structure ConsumerPins where
  current : ℕ
  starts : AssocMap ℕ ℕ
  consumers : AssocMap String ConsumerPosition
  rotation : RotationPhase
  boot : PinBoot
  sweep : Sweep
  checked : List ConsumerRequest
  queue : List QueuedEvent
  landed : List ConsumerRequest
  taken : List ConsumerRequest
  log : List ChangeLogEvent
  openSegment : ℕ
  stored : ℕ → Bool
  lost : List ℕ

namespace ConsumerPins

/-- The durable fold. -/
def fold (s : ConsumerPins) : ChangeLogFold := foldChangeLog s.log

/-- The log once all that is queued has landed. -/
def line (s : ConsumerPins) : List ChangeLogEvent := s.log ++ s.queue.map (·.ev)

def consumerPins (s : ConsumerPins) : List SegmentPin :=
  s.consumers.entries.map fun e => ⟨.consumer e.1,e.2.segment,true⟩

/-- The requests whose event is on its way to the catalog. -/
def queued (s : ConsumerPins) : List ConsumerRequest := s.queue.filterMap (·.ev.request)

/-- The requests that have passed their check and have not registered. -/
def flight (s : ConsumerPins) : List ConsumerRequest := s.checked ++ s.queued ++ s.landed

/-- Storage has deleted the segment and the chain of segments has not been told. -/
def Overlooked (s : ConsumerPins) (n : ℕ) : Prop := n ∈ s.lost ∨ ∃ ns, s.sweep = .forgetting n ns

def deleted : ChangeLogEvent → Option ℕ
  | .changesSegmentDeleted n => some n
  | _ => none

/-- The deletions whose record goes with the process. -/
def unrecorded (s : ConsumerPins) : List ℕ :=
  (match s.sweep with
    | .forgetting n _ => [n]
    | _ => []) ++ s.queue.filterMap fun m => deleted m.ev

/-- The segments that a boot misses in the catalog: they began without their record being written. -/
def missing (f : ChangeLogFold) (resolved : ℕ) : List ℕ :=
  (List.range' f.currentSegment (resolved+1-f.currentSegment)).filter
    fun n => (f.segmentStarts.get? n).isNone

/-- The steps that a condition will be put on, and the others. -/
inductive Act where
  | check (r : ConsumerRequest)
  | drop
  | readConsumers
  | other

/-- One step of a request, the catalog's writer, the sweep, the ingestor or a boot. The checkpoint, the
shapes' pins and what becomes of the shapes may be anything; an eviction of a consumer is a removal
request of its own. -/
inductive Step : ConsumerPins → Act → ConsumerPins → Prop where
  | checkPin (s : ConsumerPins) {id : String} {p : ConsumerPosition} (hid : validConsumerId id = true)
    (hcurrent : p.segment ≤ s.current)
    (hretained : p.segment = s.current ∨ (s.starts.get? p.segment).isSome)
    (hforward : ∀ old ∈ s.consumers.get? id, ¬p.rank < old.rank) (hnew : s.consumers.get? id ≠ some p) :
    Step s (.check (.pin id p)) { s with checked := s.checked ++ [.pin id p] }
  | checkRemove (s : ConsumerPins) {id : String} (hthere : (s.consumers.get? id).isSome) :
    Step s (.check (.remove id)) { s with checked := s.checked ++ [.remove id] }
  | send (s : ConsumerPins) {r : ConsumerRequest} {before after : List ConsumerRequest}
    (h : s.checked = before ++ r::after) :
    Step s .other { s with checked := before ++ after, queue := s.queue ++ [⟨r.event,true⟩] }
  | land (s : ConsumerPins) {m : QueuedEvent} {q : List QueuedEvent} (h : s.queue = m::q) :
    Step s .other { s with
      queue := q
      log := s.log ++ [m.ev]
      landed := if m.waiting then s.landed ++ m.ev.request.toList else s.landed }
  | register (s : ConsumerPins) {r : ConsumerRequest} {before after : List ConsumerRequest}
    (h : s.landed = before ++ r::after) :
    Step s .other { s with
      landed := before ++ after
      consumers := r.apply s.consumers
      taken := s.taken ++ [r] }
  /- The caller goes away before its event is sent, while it is queued, or before it has registered. -/
  | dropChecked (s : ConsumerPins) {r : ConsumerRequest} {before after : List ConsumerRequest}
    (h : s.checked = before ++ r::after) : Step s .other { s with checked := before ++ after }
  | dropQueued (s : ConsumerPins) {ev : ChangeLogEvent} {before after : List QueuedEvent}
    (h : s.queue = before ++ ⟨ev,true⟩::after) :
    Step s .drop { s with queue := before ++ ⟨ev,false⟩::after }
  | dropLanded (s : ConsumerPins) {r : ConsumerRequest} {before after : List ConsumerRequest}
    (h : s.landed = before ++ r::after) : Step s .drop { s with landed := before ++ after }
  | sweep (s : ConsumerPins) (h : s.sweep = .idle) (evictedAll : Bool) (pins : List SegmentPin) :
    Step s .other { s with sweep := .readLives evictedAll pins }
  | readConsumers (s : ConsumerPins) {evictedAll : Bool} {pins : List SegmentPin}
    (h : s.sweep = .readLives evictedAll pins) :
    Step s .readConsumers { s with sweep := .readPins evictedAll (pins ++ s.consumerPins) }
  | readSegments (s : ConsumerPins) {evictedAll : Bool} {pins : List SegmentPin}
    (h : s.sweep = .readPins evictedAll pins) :
    Step s .other { s with sweep := .readSegments evictedAll pins s.starts.entries }
  | readCurrent (s : ConsumerPins) {evictedAll : Bool} {pins : List SegmentPin}
    {segments : List (ℕ × ℕ)} (h : s.sweep = .readSegments evictedAll pins segments) :
    Step s .other { s with sweep := .readCurrent evictedAll pins segments s.current }
  | replan (s : ConsumerPins) {evictedAll : Bool} {pins : List SegmentPin} {segments : List (ℕ × ℕ)}
    {current : ℕ} (h : s.sweep = .readCurrent evictedAll pins segments current) (checkpoint now : ℕ) :
    Step s .other { s with
      sweep := .planned evictedAll (planSegmentDeletion segments current checkpoint pins 0 now).delete }
  | decide_ (s : ConsumerPins) {evictedAll : Bool} {delete : List ℕ}
    (h : s.sweep = .planned evictedAll delete) (deactivating : Bool) :
    Step s .other { s with sweep := if !evictedAll || deactivating then .idle else .deleting delete }
  | delete (s : ConsumerPins) {n : ℕ} {ns : List ℕ} (h : s.sweep = .deleting (n::ns)) :
    Step s .other { s with stored := Function.update s.stored n false, sweep := .forgetting n ns }
  | forget (s : ConsumerPins) {n : ℕ} {ns : List ℕ} (h : s.sweep = .forgetting n ns) :
    Step s .other { s with
      starts := s.starts.erase n
      queue := s.queue ++ [⟨.changesSegmentDeleted n,false⟩]
      sweep := .deleting ns }
  /- Storage refuses a deletion, or makes it and the answer is lost. -/
  | deleteFails (s : ConsumerPins) {n : ℕ} {ns : List ℕ} (h : s.sweep = .deleting (n::ns)) (made : Bool) :
    Step s .other { s with
      stored := if made then Function.update s.stored n false else s.stored
      sweep := .deleting ns
      lost := if made then n::s.lost else s.lost }
  | end_ (s : ConsumerPins) (h : s.sweep = .deleting []) : Step s .other { s with sweep := .idle }
  /- The ingestor runs from the end of a boot: the successor is made and the segment closed. -/
  | close (s : ConsumerPins) (hready : s.boot = .ready) (h : s.rotation = .idle) :
    Step s .other { s with
      openSegment := s.openSegment+1
      stored := Function.update s.stored (s.openSegment+1) true
      rotation := .closed }
  | begin_ (s : ConsumerPins) (h : s.rotation = .closed) (now : ℕ) :
    Step s .other { s with
      current := s.openSegment
      starts := s.starts.insert s.openSegment now
      rotation := .began }
  | record (s : ConsumerPins) (h : s.rotation = .began) (now : ℕ) :
    Step s .other { s with
      queue := s.queue ++ [⟨.changesRotated s.openSegment now,false⟩]
      rotation := .idle }
  /- The process ends, and another one starts with nothing in memory. -/
  | crash (s : ConsumerPins) :
    Step s .other { s with
      current := 0
      starts := .empty
      consumers := .empty
      rotation := .idle
      boot := .starting
      sweep := .idle
      checked := []
      queue := []
      landed := []
      taken := []
      lost := s.lost ++ s.unrecorded }
  | readCatalog (s : ConsumerPins) (h : s.boot = .starting) :
    Step s .other { s with boot := .folded s.log }
  /- The walk over the closed segments finds each of them and ends at the open one. -/
  | initChangeLog (s : ConsumerPins) {read : List ChangeLogEvent} (h : s.boot = .folded read)
    (hwalk : ∀ n, (foldChangeLog read).currentSegment ≤ n → n ≤ s.openSegment → s.stored n = true)
    (now : ℕ) :
    Step s .other { s with
      current := s.openSegment
      starts := (missing (foldChangeLog read) s.openSegment).foldl (fun m n => m.insert n now)
        (foldChangeLog read).segmentStarts
      queue := s.queue ++
        (missing (foldChangeLog read) s.openSegment).map fun n => ⟨.changesRotated n now,false⟩
      boot := .resolved read }
  | applyCatalog (s : ConsumerPins) {read : List ChangeLogEvent} (h : s.boot = .resolved read)
    (hpins : ∀ e ∈ (foldChangeLog read).consumers.entries, (s.starts.get? e.2.segment).isSome) :
    Step s .other { s with
      consumers := (foldChangeLog read).consumers
      boot := .ready
      taken := read.filterMap (·.request) }
  /- Something else of the setup fails, and it is made again. -/
  | retrySetup (s : ConsumerPins) (h : ¬s.boot = .ready) : Step s .other { s with boot := .starting }

/-- The condition on a step. A request comes once the boot has installed the pins, and when no other request of its
consumer is between its check and its registration; a pin is not checked against a segment whose deletion was
overlooked, nor past a sweep that has read its way beyond it. No caller goes away between the send and the
registration. A sweep reads the pins once they are installed, and reads some that spare those in flight. -/
def Allowed (s : ConsumerPins) : Act → Prop
  | .check r => s.boot = .ready ∧ (∀ r' ∈ s.flight, r'.id ≠ r.id) ∧ ∀ id p, r = .pin id p →
    ¬s.Overlooked p.segment ∧ s.sweep.sparesConsumer p.segment = true
  | .drop => False
  | .readConsumers => s.boot = .ready ∧ ∀ id p, .pin id p ∈ s.flight → ∀ evictedAll pins,
    s.sweep = .readLives evictedAll pins →
      (Sweep.readPins evictedAll (pins ++ s.consumerPins)).sparesConsumer p.segment = true
  | .other => True

def Steps : ConsumerPins → ConsumerPins → Prop := Relation.ReflTransGen fun s t => ∃ a, Step s a t

/-- A run whose steps all meet the condition. -/
def GuardedSteps : ConsumerPins → ConsumerPins → Prop :=
  Relation.ReflTransGen fun s t => ∃ a, s.Allowed a ∧ Step s a t

/-- A first boot. -/
def new : ConsumerPins :=
  ⟨0,.empty,.empty,.idle,.starting,.idle,[],[],[],[],[],0,fun n => n == 0,[]⟩

end ConsumerPins

def requests (l : List ChangeLogEvent) : List ConsumerRequest := l.filterMap (·.request)

/-- The pins that requests make of none. -/
def pinsOf (rs : List ConsumerRequest) : AssocMap String ConsumerPosition :=
  rs.foldl ConsumerRequest.apply .empty

/-- No pin is before the one that its consumer has then. -/
def Forward (rs : List ConsumerRequest) : Prop :=
  ∀ before id p after, rs = before ++ .pin id p::after →
    ∀ old ∈ (pinsOf before).get? id, ¬p.rank < old.rank

lemma pinsOf_snoc (rs : List ConsumerRequest) (r : ConsumerRequest) :
    pinsOf (rs ++ [r]) = r.apply (pinsOf rs) := by
  rw [pinsOf,List.foldl_append]
  rfl

lemma foldChangeLog_snoc (l : List ChangeLogEvent) (ev : ChangeLogEvent) :
    foldChangeLog (l ++ [ev]) = (foldChangeLog l).apply ev := by
  rw [foldChangeLog,List.foldl_append]
  rfl

lemma requests_snoc (l : List ChangeLogEvent) (ev : ChangeLogEvent) :
    requests (l ++ [ev]) = requests l ++ ev.request.toList := by
  rw [requests,List.filterMap_append]
  cases h : ev.request with
  | none => simp [requests,List.filterMap_cons_none h]
  | some r => simp [requests,List.filterMap_cons_some h]

/-- The pins of the fold are what the requests in the log make of none. -/
lemma fold_consumers (l : List ChangeLogEvent) : (foldChangeLog l).consumers = pinsOf (requests l) := by
  induction l using List.reverseRecOn with
  | nil => rfl
  | append_singleton l ev ih =>
    rw [foldChangeLog_snoc,requests_snoc]
    cases ev with
    | consumerPinned id position =>
      refine Eq.trans ?_ (pinsOf_snoc _ (.pin id position)).symm
      exact congrArg (AssocMap.insert · id position) ih
    | consumerEvicted id =>
      refine Eq.trans ?_ (pinsOf_snoc _ (.remove id)).symm
      exact congrArg (AssocMap.erase · id) ih
    | _ => exact ih.trans (congrArg pinsOf (List.append_nil _).symm)

namespace ConsumerRequest

lemma get?_apply_ne {r : ConsumerRequest} {id : String} (h : r.id ≠ id)
    (m : AssocMap String ConsumerPosition) : (r.apply m).get? id = m.get? id := by
  cases r with
  | pin id' p => exact (AssocMap.get?_insert_eq _ _ _ _).trans (if_neg h)
  | remove id' => exact (AssocMap.get?_erase _ _ _).trans (if_neg fun he => h (eq_of_beq he))

lemma get?_apply_congr {r : ConsumerRequest} {id : String} {m m' : AssocMap String ConsumerPosition}
    (h : m.get? id = m'.get? id) : (r.apply m).get? id = (r.apply m').get? id := by
  cases r with
  | pin id' p => rw [apply,apply,AssocMap.get?_insert_eq,AssocMap.get?_insert_eq,h]
  | remove id' => rw [apply,apply,AssocMap.get?_erase,AssocMap.get?_erase,h]

/-- The requests of one consumer. -/
def of (id : String) (rs : List ConsumerRequest) : List ConsumerRequest := rs.filter (·.id = id)

lemma of_snoc (id : String) (rs : List ConsumerRequest) (r : ConsumerRequest) :
    of id (rs ++ [r]) = of id rs ++ if r.id = id then [r] else [] := by
  rw [of,List.filter_append]
  split_ifs with h <;> simp [of,h]

/-- The only request of its consumer. -/
lemma alone_of_length {rs before after : List ConsumerRequest} {r : ConsumerRequest}
    (hone : (of r.id rs).length ≤ 1) (h : (before ++ r::after).Sublist rs) :
    ∀ r' ∈ before ++ after, r'.id ≠ r.id := by
  have hlen := (h.filter (fun r' : ConsumerRequest => decide (r'.id = r.id))).length_le
  rw [List.filter_append,List.filter_cons_of_pos (by simp),List.length_append,List.length_cons] at hlen
  have hshort : (of r.id (before ++ after)).length = 0 := by
    rw [of] at hone ⊢
    rw [List.filter_append,List.length_append]
    omega
  have hnil := List.filter_eq_nil_iff.mp (List.eq_nil_of_length_eq_zero hshort)
  exact fun r' hr' => by simpa using hnil r' hr'

/-- A consumer's pin is made by its own requests. -/
lemma get?_pinsOf (id : String) (rs : List ConsumerRequest) :
    (pinsOf rs).get? id = (pinsOf (of id rs)).get? id := by
  induction rs using List.reverseRecOn with
  | nil => rfl
  | append_singleton rs r ih =>
    rw [pinsOf_snoc,of_snoc]
    by_cases h : r.id = id
    · rw [if_pos h,pinsOf_snoc]
      exact get?_apply_congr ih
    · rw [if_neg h,List.append_nil]
      exact (get?_apply_ne h _).trans ih

end ConsumerRequest

open ConsumerRequest

lemma Forward.of_prefix {rs rs' : List ConsumerRequest} (h : Forward rs) (hp : rs' <+: rs) :
    Forward rs' := by
  obtain ⟨rest,rfl⟩ := hp
  intro before id p after he
  exact h before id p (after ++ rest) (by simp [he])

lemma Forward.snoc {rs : List ConsumerRequest} (h : Forward rs) {r : ConsumerRequest}
    (hr : ∀ id p, r = .pin id p → ∀ old ∈ (pinsOf rs).get? id, ¬p.rank < old.rank) : Forward (rs ++ [r]) := by
  intro before id p after he
  rcases List.eq_nil_or_concat after with rfl | ⟨after,r',rfl⟩
  · obtain ⟨hrs,hlast⟩ := List.append_inj' he rfl
    exact hrs ▸ hr id p (List.singleton_inj.mp hlast)
  · rw [List.concat_eq_append,← List.cons_append,← List.append_assoc] at he
    exact h before id p after (List.append_inj' he rfl).1

/-- Requests that are, consumer by consumer, a first part of others. -/
lemma Forward.of_parts {rs rs' : List ConsumerRequest} (h : Forward rs)
    (hp : ∀ id, of id rs' <+: of id rs) : Forward rs' := by
  intro before id p after he
  obtain ⟨rest,hrest⟩ := hp id
  have hof : of id rs = of id before ++ .pin id p::(of id after ++ rest) := by
    rw [← hrest,he]
    simp [of,ConsumerRequest.id]
  obtain ⟨before',tail,rfl,hbefore,htail⟩ := List.filter_eq_append_iff.mp hof
  obtain ⟨skipped,after',rfl,hskipped,-,-⟩ := List.filter_eq_cons_iff.mp htail
  have hpin := h (before' ++ skipped) id p after' (by simp)
  have hnone : of id skipped = [] := List.filter_eq_nil_iff.mpr (by simpa using hskipped)
  have hsame : of id (before' ++ skipped) = of id before := by
    rw [of,List.filter_append,← hbefore]
    exact (congrArg _ hnone).trans (List.append_nil _)
  rwa [get?_pinsOf,hsame,← get?_pinsOf] at hpin

namespace ChangeLogFold

lemma known_apply {f : ChangeLogFold} {ev : ChangeLogEvent} {n : ℕ} (h : f.known n)
    (hev : ev ≠ .changesSegmentDeleted n) : (f.apply ev).known n := by
  cases ev with
  | changesRotated m at_ =>
    have hget := AssocMap.get?_insert_eq f.segmentStarts m n at_
    simp only [known,apply,hget]
    split_ifs
    · rfl
    · exact h
  | changesSegmentDeleted m =>
    have hne : ¬m = n := fun he => hev (he ▸ rfl)
    simp only [known,apply,AssocMap.get?_erase,beq_iff_eq,hne,if_false]
    exact h
  | _ => exact h

lemma of_known_apply {f : ChangeLogFold} {ev : ChangeLogEvent} {n : ℕ} (h : (f.apply ev).known n) :
    f.known n ∨ ∃ at_, ev = .changesRotated n at_ := by
  cases ev with
  | changesRotated m at_ =>
    by_cases hm : m = n
    · exact .inr ⟨at_,hm ▸ rfl⟩
    · simp only [known,apply,AssocMap.get?_insert_eq,hm,if_false] at h
      exact .inl h
  | changesSegmentDeleted m =>
    simp only [known,apply,AssocMap.get?_erase,beq_iff_eq] at h
    split_ifs at h
    · cases h
    · exact .inl h
  | _ => exact .inl h

lemma not_known_deleted (f : ChangeLogFold) (n : ℕ) : ¬(f.apply (.changesSegmentDeleted n)).known n := by
  simp only [known,apply,AssocMap.get?_erase_self]
  exact Bool.false_ne_true

lemma known_rotated (f : ChangeLogFold) (n at_ : ℕ) : (f.apply (.changesRotated n at_)).known n := by
  simp only [known,apply,AssocMap.get?_insert_self,Option.isSome_some]

end ChangeLogFold

lemma of_known_append {l rest : List ChangeLogEvent} {n : ℕ} (h : (foldChangeLog (l ++ rest)).known n) :
    (foldChangeLog l).known n ∨ ∃ at_, .changesRotated n at_ ∈ rest := by
  induction rest using List.reverseRecOn with
  | nil => exact .inl (by rwa [List.append_nil] at h)
  | append_singleton rest ev ih =>
    rw [← List.append_assoc,foldChangeLog_snoc] at h
    rcases ChangeLogFold.of_known_apply h with hk | ⟨at_,rfl⟩
    · exact (ih hk).imp_right fun ⟨at_,hm⟩ => ⟨at_,List.mem_append_left _ hm⟩
    · exact .inr ⟨at_,List.mem_append_right _ (.head _)⟩

lemma known_append {l rest : List ChangeLogEvent} {n : ℕ} (hdeleted : .changesSegmentDeleted n ∉ rest)
    (h : (foldChangeLog l).known n) : (foldChangeLog (l ++ rest)).known n := by
  induction rest using List.reverseRecOn with
  | nil => rwa [List.append_nil]
  | append_singleton rest ev ih =>
    rw [← List.append_assoc,foldChangeLog_snoc]
    refine ChangeLogFold.known_apply (ih fun hm => hdeleted (List.mem_append_left _ hm)) ?_
    exact fun he => hdeleted (he ▸ List.mem_append_right _ (.head _))

lemma known_of_initial {l l' : List ChangeLogEvent} {n : ℕ} (hp : l <+: l')
    (hdeleted : .changesSegmentDeleted n ∉ l') (h : (foldChangeLog l).known n) :
    (foldChangeLog l').known n := by
  obtain ⟨rest,rfl⟩ := hp
  exact known_append (fun hm => hdeleted (List.mem_append_right _ hm)) h

lemma isSome_foldl_insert {now n : ℕ} {ns : List ℕ} {m : AssocMap ℕ ℕ}
    (h : ((ns.foldl (fun m n => m.insert n now) m).get? n).isSome) : n ∈ ns ∨ (m.get? n).isSome := by
  induction ns generalizing m with
  | nil => exact .inr h
  | cons k ns ih =>
    rcases ih h with hn | hget
    · exact .inl (.tail _ hn)
    · rw [AssocMap.get?_insert_eq] at hget
      split_ifs at hget with he
      · exact .inl (he ▸ .head _)
      · exact .inr hget

/-- What a log says of the segments up to the open one: a segment is recorded after those before it, and
one whose deletion is recorded is gone. -/
structure LineInv (stored : ℕ → Bool) (last : ℕ) (l : List ChangeLogEvent) : Prop where
  ordered : ∀ before m at_ after, l = before ++ .changesRotated m at_::after →
    ∀ n < m, stored n = true → (foldChangeLog before).known n
  gone : ∀ n, .changesSegmentDeleted n ∈ l → stored n = false ∧ n ≤ last
  rotated : ∀ n at_, .changesRotated n at_ ∈ l → n ≤ last

namespace LineInv
variable {stored : ℕ → Bool} {last : ℕ} {l : List ChangeLogEvent}

lemma of_prefix {l' : List ChangeLogEvent} (h : LineInv stored last l) (hp : l' <+: l) :
    LineInv stored last l' := by
  obtain ⟨rest,rfl⟩ := hp
  refine ⟨fun before m at_ after he => ?_,fun n hn => h.gone n (List.mem_append_left _ hn),
    fun n at_ hn => h.rotated n at_ (List.mem_append_left _ hn)⟩
  exact h.ordered before m at_ (after ++ rest) (by simp [he])

lemma not_deleted (h : LineInv stored last l) {n : ℕ} (hn : stored n = true) :
    .changesSegmentDeleted n ∉ l := by
  intro hm
  simp [(h.gone n hm).1] at hn

/-- Segments may go. -/
lemma mono {stored' : ℕ → Bool} (h : LineInv stored last l)
    (hs : ∀ n, stored' n = true → stored n = true) : LineInv stored' last l := by
  refine ⟨fun before m at_ after he n hlt hn => h.ordered before m at_ after he n hlt (hs n hn),
    fun n hn => ⟨?_,(h.gone n hn).2⟩,h.rotated⟩
  exact Bool.eq_false_iff.mpr fun hs' => h.not_deleted (hs n hs') hn

/-- A new segment is opened. -/
lemma close (h : LineInv stored last l) : LineInv (Function.update stored (last+1) true) (last+1) l := by
  refine ⟨fun before m at_ after he n hlt hn => ?_,fun n hn => ?_,
    fun n at_ hn => Nat.le_succ_of_le (h.rotated n at_ hn)⟩
  · have hm := h.rotated m at_ (he ▸ List.mem_append_right _ (.head _))
    rw [Function.update_of_ne (by omega)] at hn
    exact h.ordered before m at_ after he n hlt hn
  · obtain ⟨hgone,hle⟩ := h.gone n hn
    exact ⟨(Function.update_of_ne (by omega) _ _).trans hgone,Nat.le_succ_of_le hle⟩

lemma snoc {ev : ChangeLogEvent} (h : LineInv stored last l)
    (hrotated : ∀ m at_, ev = .changesRotated m at_ → m ≤ last ∧
      ∀ n < m, stored n = true → (foldChangeLog l).known n)
    (hdeleted : ∀ n, ev = .changesSegmentDeleted n → stored n = false ∧ n ≤ last) :
    LineInv stored last (l ++ [ev]) := by
  refine ⟨fun before m at_ after he => ?_,fun n hn => ?_,fun n at_ hn => ?_⟩
  · rcases List.eq_nil_or_concat after with rfl | ⟨after,ev',rfl⟩
    · obtain ⟨rfl,hlast⟩ := List.append_inj' he rfl
      exact (hrotated m at_ (List.singleton_inj.mp hlast)).2
    · rw [List.concat_eq_append,← List.cons_append,← List.append_assoc] at he
      exact h.ordered before m at_ after (List.append_inj' he rfl).1
  · rcases List.mem_append.mp hn with hn | hn
    · exact h.gone n hn
    · exact hdeleted n (List.mem_singleton.mp hn).symm
  · rcases List.mem_append.mp hn with hn | hn
    · exact h.rotated n at_ hn
    · exact (hrotated n at_ (List.mem_singleton.mp hn).symm).1

/-- A segment that is there is in the fold, or not before its current segment: the boot's walk finds it. -/
lemma known_or (h : LineInv stored last l) {n : ℕ} (hn : stored n = true) :
    (foldChangeLog l).known n ∨ (foldChangeLog l).currentSegment ≤ n := by
  induction l using List.reverseRecOn with
  | nil => exact .inr (Nat.zero_le n)
  | append_singleton l ev ih =>
    have hev : ev ≠ .changesSegmentDeleted n :=
      fun he => h.not_deleted hn (he ▸ List.mem_append_right _ (.head _))
    rw [foldChangeLog_snoc]
    rcases ih (h.of_prefix (List.prefix_append _ _)) with hk | hle
    · exact .inl (ChangeLogFold.known_apply hk hev)
    · cases ev with
      | changesRotated m at_ =>
        by_cases hm : n < m
        · exact .inl (ChangeLogFold.known_apply (h.ordered l m at_ [] rfl n hm hn) hev)
        · exact .inr (max_le hle (Nat.not_lt.mp hm))
      | _ => exact .inr hle

/-- The missing segments are recorded, the first one first. -/
lemma rotations (now : ℕ) {ns : List ℕ} (h : LineInv stored last l) (hns : ns.Pairwise (· < ·))
    (hle : ∀ n ∈ ns, n ≤ last)
    (hall : ∀ n, stored n = true → (foldChangeLog l).known n ∨ n ∈ ns) :
    LineInv stored last (l ++ ns.map fun n => .changesRotated n now) ∧
      ∀ n, stored n = true → (foldChangeLog (l ++ ns.map fun n => .changesRotated n now)).known n := by
  induction ns generalizing l with
  | nil =>
    rw [List.map_nil,List.append_nil]
    exact ⟨h,fun n hn => (hall n hn).resolve_right List.not_mem_nil⟩
  | cons k ns ih =>
    obtain ⟨hk,hns⟩ := List.pairwise_cons.mp hns
    obtain ⟨hkle,hle⟩ := List.forall_mem_cons.mp hle
    have hsnoc : LineInv stored last (l ++ [.changesRotated k now]) := by
      refine h.snoc (fun m at_ he => ?_) (fun n he => by cases he)
      obtain ⟨rfl,rfl⟩ := ChangeLogEvent.changesRotated.inj he
      refine ⟨hkle,fun n hlt hn => (hall n hn).resolve_right fun hm => ?_⟩
      rcases List.mem_cons.mp hm with rfl | hm
      · exact lt_irrefl _ hlt
      · exact lt_asymm hlt (hk n hm)
    rw [List.map_cons,List.append_cons]
    refine ih hsnoc hns hle fun n hn => ?_
    rw [foldChangeLog_snoc]
    rcases hall n hn with hknown | hm
    · exact .inl (ChangeLogFold.known_apply hknown (by simp))
    · rcases List.mem_cons.mp hm with rfl | hm
      · exact .inl (ChangeLogFold.known_rotated _ _ _)
      · exact .inr hm

end LineInv

/-- What the current segment is not before, where the sweep has read it. -/
def Sweep.bounds : Sweep → List ℕ
  | .readCurrent _ _ _ current => [current]
  | .planned _ delete | .deleting delete => delete.map (·+1)
  | .forgetting n delete => (n::delete).map (·+1)
  | _ => []

/-- The sweep has not read the pins. -/
def Sweep.Unread (w : Sweep) : Prop := w = .idle ∨ ∃ evictedAll pins, w = .readLives evictedAll pins

namespace ConsumerPins

/-- What holds of the segments, in storage, in memory and in the catalog: those that memory or the catalog has are
there, unless their deletion was overlooked. -/
structure SegmentsInv (s : ConsumerPins) : Prop where
  line : LineInv s.stored s.openSegment s.line
  read : ∀ read, s.boot = .folded read ∨ s.boot = .resolved read →
    ∃ rest, s.log = read ++ rest ∧ ∀ n, .changesSegmentDeleted n ∉ rest
  known : (∃ read, s.boot = .resolved read) ∨ s.boot = .ready → ∀ n, s.stored n = true →
    (foldChangeLog s.line).known n ∨ n = s.openSegment ∧ s.rotation ≠ .idle
  idle : s.boot ≠ .ready → s.rotation = .idle
  resting : s.boot ≠ .ready → s.sweep.Unread ∧ ∀ m ∈ s.queue, deleted m.ev = none
  below : ∀ n, s.stored n = true → n ≤ s.openSegment
  current : s.current ≤ s.openSegment
  bounds : ∀ b ∈ s.sweep.bounds, b ≤ s.current
  forgotten : ∀ n ns, s.sweep = .forgetting n ns → s.stored n = false
  opened : s.stored s.openSegment = true
  resolved : (∃ read, s.boot = .resolved read) ∨ s.boot = .ready → s.stored s.current = true
  listed : ∀ n, (s.starts.get? n).isSome → s.stored n = true ∨ s.Overlooked n
  recorded : ∀ n, (foldChangeLog s.line).known n → s.stored n = true ∨ s.Overlooked n

lemma line_queue (s : ConsumerPins) (ev : ChangeLogEvent) (waiting : Bool) :
    ({ s with queue := s.queue ++ [⟨ev,waiting⟩] } : ConsumerPins).line = s.line ++ [ev] := by
  simp [line]

lemma line_land (s : ConsumerPins) {m : QueuedEvent} {q : List QueuedEvent} (h : s.queue = m::q) :
    s.log ++ [m.ev] ++ q.map (·.ev) = s.line := by
  simp [line,h]

lemma deleted_eq_none {ev : ChangeLogEvent} (h : deleted ev = none) (n : ℕ) : ev ≠ .changesSegmentDeleted n := by
  rintro rfl
  cases h

namespace SegmentsInv
variable {s : ConsumerPins}

/-- An event is queued. -/
lemma send (h : SegmentsInv s) {ev : ChangeLogEvent} (waiting : Bool)
    (hline : LineInv s.stored s.openSegment (s.line ++ [ev])) (hdeleted : s.boot ≠ .ready → deleted ev = none)
    (hrotated : ∀ n at_, ev = .changesRotated n at_ → s.stored n = true) :
    SegmentsInv { s with queue := s.queue ++ [⟨ev,waiting⟩] } := by
  refine { h with
    line := ?_
    known := fun hb n hn => ?_
    resting := fun hb => ⟨(h.resting hb).1,fun m hm => ?_⟩
    recorded := fun n hn => ?_ }
  · rw [line_queue]
    exact hline
  · rw [line_queue]
    refine (h.known hb n hn).imp_left fun hk => ?_
    exact known_of_initial (List.prefix_append _ _) (hline.not_deleted hn) hk
  · rcases List.mem_append.mp hm with hm | hm
    · exact (h.resting hb).2 m hm
    · exact List.mem_singleton.mp hm ▸ hdeleted hb
  · rw [line_queue,foldChangeLog_snoc] at hn
    rcases ChangeLogFold.of_known_apply hn with hk | ⟨at_,he⟩
    · exact h.recorded n hk
    · exact .inl (hrotated n at_ he)

/-- The sweep goes on, with nothing deleted on either side. -/
lemma goto (h : SegmentsInv s) {w : Sweep} (hbounds : ∀ b ∈ w.bounds, b ≤ s.current)
    (hresting : s.boot ≠ .ready → w.Unread) (hfrom : ∀ n ns, s.sweep ≠ .forgetting n ns)
    (hto : ∀ n ns, w ≠ .forgetting n ns) : SegmentsInv { s with sweep := w } := by
  have hover : ∀ n, s.Overlooked n → Overlooked { s with sweep := w } n :=
    fun n ho => .inl (ho.resolve_right fun ⟨ns,he⟩ => hfrom n ns he)
  exact { h with
    resting := fun hb => ⟨hresting hb,(h.resting hb).2⟩
    bounds := hbounds
    forgotten := fun n ns he => absurd he (hto n ns)
    listed := fun n hn => (h.listed n hn).imp_right (hover n)
    recorded := fun n hn => (h.recorded n hn).imp_right (hover n) }

lemma ready_of_bounds (h : SegmentsInv s) {w : Sweep} (hw : s.sweep = w) (hread : ¬w.Unread) : s.boot = .ready :=
  by_contra fun hb => hread (hw ▸ (h.resting hb).1)

/-- A segment goes, and its deletion is overlooked. -/
lemma gone (h : SegmentsInv s) {n : ℕ} {w : Sweep} {lost : List ℕ} (hn : n < s.current)
    (hready : s.boot = .ready) (hbounds : ∀ b ∈ w.bounds, b ≤ s.current)
    (hforgotten : ∀ m ns, w = .forgetting m ns → m = n)
    (hover : ∀ m, s.Overlooked m ∨ m = n →
      Overlooked { s with stored := Function.update s.stored n false, sweep := w, lost := lost } m) :
    SegmentsInv { s with stored := Function.update s.stored n false, sweep := w, lost := lost } := by
  have hs : ∀ m, Function.update s.stored n false m = true → s.stored m = true := by
    intro m hm
    by_cases he : m = n
    · simp [he] at hm
    · rwa [Function.update_of_ne he] at hm
  have hkept : ∀ m, s.stored m = true ∨ s.Overlooked m → Function.update s.stored n false m = true ∨
      Overlooked { s with stored := Function.update s.stored n false, sweep := w, lost := lost } m := by
    intro m hm
    by_cases he : m = n
    · exact .inr (hover m (.inr he))
    · rw [Function.update_of_ne he]
      exact hm.imp_right fun ho => hover m (.inl ho)
  refine { h with
    line := h.line.mono hs
    known := fun hb m hm => h.known hb m (hs m hm)
    resting := fun hb => absurd hready hb
    below := fun m hm => h.below m (hs m hm)
    bounds := hbounds
    forgotten := fun m ns hw => ?_
    opened := ?_
    resolved := fun hb => ?_
    listed := fun m hm => hkept m (h.listed m hm)
    recorded := fun m hm => hkept m (h.recorded m hm) }
  · exact (hforgotten m ns hw) ▸ Function.update_self _ _ _
  · exact (Function.update_of_ne (hn.trans_le h.current).ne' _ _).trans h.opened
  · exact (Function.update_of_ne hn.ne' _ _).trans (h.resolved hb)

/-- The chain is told of a deletion, and its record is queued. -/
lemma forget (h : SegmentsInv s) {n : ℕ} {ns : List ℕ} (hw : s.sweep = .forgetting n ns) :
    SegmentsInv { s with
      starts := s.starts.erase n
      queue := s.queue ++ [⟨.changesSegmentDeleted n,false⟩]
      sweep := .deleting ns } := by
  have hbounds := h.bounds
  rw [hw] at hbounds
  have hready := h.ready_of_bounds hw (by rintro (he | ⟨_,_,he⟩) <;> cases he)
  have hline : LineInv s.stored s.openSegment (s.line ++ [.changesSegmentDeleted n]) := by
    refine h.line.snoc (fun m at_ he => by cases he) (fun m he => ?_)
    obtain rfl := ChangeLogEvent.changesSegmentDeleted.inj he
    exact ⟨h.forgotten _ _ hw,(Nat.le_of_succ_le (hbounds _ (.head _))).trans h.current⟩
  have hsent := h.send false hline (fun hb => absurd hready hb) (fun _ _ he => by cases he)
  have hother : ∀ m, m ≠ n → s.stored m = true ∨ s.Overlooked m → s.stored m = true ∨ m ∈ s.lost := by
    rintro m hne (hs | hl | ⟨ns',he⟩)
    · exact .inl hs
    · exact .inr hl
    · rw [hw] at he
      exact absurd (Sweep.forgetting.inj he).1.symm hne
  refine { hsent with
    resting := fun hb => absurd hready hb
    bounds := fun b hb => hbounds b (.tail _ hb)
    forgotten := fun m ns' he => by cases he
    listed := fun m hm => ?_
    recorded := fun m hm => ?_ }
  · dsimp only at hm
    simp only [AssocMap.get?_erase,beq_iff_eq] at hm
    split_ifs at hm with he
    · cases hm
    · exact (hother m (Ne.symm he) (h.listed m hm)).imp_right .inl
  · replace hm : (foldChangeLog (s.line ++ [.changesSegmentDeleted n])).known m := by
      rw [← line_queue s _ false]
      exact hm
    rw [foldChangeLog_snoc] at hm
    by_cases he : m = n
    · exact absurd (he ▸ hm) (ChangeLogFold.not_known_deleted _ n)
    · refine (hother m he (h.recorded m ?_)).imp_right .inl
      exact (ChangeLogFold.of_known_apply hm).resolve_right fun ⟨_,hr⟩ => by cases hr

/-- The successor of the open segment is made. -/
lemma close (h : SegmentsInv s) (hready : s.boot = .ready) (hidle : s.rotation = .idle) :
    SegmentsInv { s with
      openSegment := s.openSegment+1
      stored := Function.update s.stored (s.openSegment+1) true
      rotation := .closed } := by
  have hold : ∀ n, n ≠ s.openSegment+1 →
      Function.update s.stored (s.openSegment+1) true n = s.stored n :=
    fun n hn => Function.update_of_ne hn _ _
  have hkept : ∀ n, s.stored n = true ∨ s.Overlooked n →
      Function.update s.stored (s.openSegment+1) true n = true ∨ s.Overlooked n := by
    refine fun n => Or.imp_left fun hn => ?_
    exact (hold n (by have := h.below n hn; omega)).trans hn
  refine { h with
    line := h.line.close
    known := fun _ n hn => ?_
    idle := fun hb => absurd hready hb
    below := fun n hn => ?_
    current := Nat.le_succ_of_le h.current
    forgotten := fun n ns hw => ?_
    opened := Function.update_self _ _ _
    resolved := fun hb => ?_
    listed := fun n hn => hkept n (h.listed n hn)
    recorded := fun n hn => hkept n (h.recorded n hn) }
  · by_cases he : n = s.openSegment+1
    · exact .inr ⟨he,by simp⟩
    · have hn := (hold n he).symm.trans hn
      exact .inl ((h.known (.inr hready) n hn).resolve_right fun hr => hr.2 hidle)
  · by_cases he : n = s.openSegment+1
    · exact he.le
    · have hn := (hold n he).symm.trans hn
      exact Nat.le_succ_of_le (h.below n hn)
  · have hle := h.bounds (n+1) (by rw [hw]; exact .head _)
    have hcurrent := h.current
    exact (hold n (by omega)).trans (h.forgotten n ns hw)
  · have hcurrent := h.current
    exact (hold s.current (by omega)).trans (h.resolved hb)

/-- The open segment becomes the current one. -/
lemma begin_ (h : SegmentsInv s) (hclosed : s.rotation = .closed) (now : ℕ) :
    SegmentsInv { s with
      current := s.openSegment
      starts := s.starts.insert s.openSegment now
      rotation := .began } := by
  have hready : s.boot = .ready := by_contra fun hb => by simp [h.idle hb] at hclosed
  refine { h with
    known := fun hb n hn => (h.known hb n hn).imp_right fun hr => ⟨hr.1,by simp⟩
    idle := fun hb => absurd hready hb
    current := le_rfl
    bounds := fun b hb => (h.bounds b hb).trans h.current
    resolved := fun _ => h.opened
    listed := fun n hn => ?_ }
  rw [AssocMap.get?_insert_eq] at hn
  split_ifs at hn with he
  · exact .inl (he ▸ h.opened)
  · exact h.listed n hn

/-- The open segment is recorded. -/
lemma record (h : SegmentsInv s) (hbegan : s.rotation = .began) (now : ℕ) :
    SegmentsInv { s with
      queue := s.queue ++ [⟨.changesRotated s.openSegment now,false⟩]
      rotation := .idle } := by
  have hready : s.boot = .ready := by_contra fun hb => by simp [h.idle hb] at hbegan
  have hline : LineInv s.stored s.openSegment (s.line ++ [.changesRotated s.openSegment now]) := by
    refine h.line.snoc (fun m at_ he => ?_) (fun n he => by cases he)
    obtain ⟨rfl,rfl⟩ := ChangeLogEvent.changesRotated.inj he
    exact ⟨le_rfl,fun n hlt hn => (h.known (.inr hready) n hn).resolve_right fun hr => hlt.ne hr.1⟩
  have hsent := h.send false hline (fun _ => rfl) fun n at_ he =>
    (ChangeLogEvent.changesRotated.inj he).1 ▸ h.opened
  refine { hsent with known := fun hb n hn => .inl ?_, idle := fun hb => absurd hready hb }
  rcases hsent.known hb n hn with hk | ⟨rfl,-⟩
  · exact hk
  · have hopen := ChangeLogFold.known_rotated (foldChangeLog s.line) s.openSegment now
    rwa [← foldChangeLog_snoc,← line_queue s _ false] at hopen

lemma land (h : SegmentsInv s) {m : QueuedEvent} {q : List QueuedEvent} (hq : s.queue = m::q)
    (landed : List ConsumerRequest) :
    SegmentsInv { s with queue := q, log := s.log ++ [m.ev], landed := landed } := by
  have hline : ({ s with queue := q, log := s.log ++ [m.ev], landed := landed } : ConsumerPins).line = s.line :=
    line_land s hq
  refine { h with
    line := hline ▸ h.line
    read := fun read hb => ?_
    known := fun hb => hline ▸ h.known hb
    resting := fun hb => ⟨(h.resting hb).1,fun m' hm => (h.resting hb).2 m' (hq ▸ .tail _ hm)⟩
    recorded := fun n hn => h.recorded n (hline ▸ hn) }
  obtain ⟨rest,hlog,hrest⟩ := h.read read hb
  have hnone := (h.resting (by rintro hr; simp [hr] at hb)).2 m (hq ▸ .head _)
  refine ⟨rest ++ [m.ev],by rw [← List.append_assoc,← hlog],fun n hn => ?_⟩
  rcases List.mem_append.mp hn with hn | hn
  · exact hrest n hn
  · exact deleted_eq_none hnone n (List.mem_singleton.mp hn).symm

lemma crash (h : SegmentsInv s) :
    SegmentsInv { s with
      current := 0
      starts := .empty
      consumers := .empty
      rotation := .idle
      boot := .starting
      sweep := .idle
      checked := []
      queue := []
      landed := []
      taken := []
      lost := s.lost ++ s.unrecorded } where
  line := h.line.of_prefix ⟨s.queue.map (·.ev),by simp [ConsumerPins.line]⟩
  read := by simp
  known := by simp
  idle := fun _ => rfl
  resting := fun _ => ⟨.inl rfl,by simp⟩
  below := h.below
  current := Nat.zero_le _
  bounds := fun _ hn => by cases hn
  forgotten := by simp
  opened := h.opened
  resolved := by simp
  listed := fun _ hn => by cases hn
  recorded := fun n hn => by
    replace hn : (foldChangeLog s.log).known n := by simpa [ConsumerPins.line] using hn
    by_cases hd : .changesSegmentDeleted n ∈ s.queue.map (·.ev)
    · -- its record goes with the process
      obtain ⟨m,hm,he⟩ := List.mem_map.mp hd
      refine .inr (.inl (List.mem_append_right _ (List.mem_append_right _ ?_)))
      exact List.mem_filterMap.mpr ⟨m,hm,by rw [he]; rfl⟩
    · rcases h.recorded n (known_append hd hn) with hs | hl | ⟨ns,hw⟩
      · exact .inl hs
      · exact .inr (.inl (List.mem_append_left _ hl))
      · refine .inr (.inl (List.mem_append_right _ (List.mem_append_left _ ?_)))
        rw [hw]
        exact .head _

lemma initChangeLog (h : SegmentsInv s) {read : List ChangeLogEvent} (hb : s.boot = .folded read)
    (hwalk : ∀ n, (foldChangeLog read).currentSegment ≤ n → n ≤ s.openSegment → s.stored n = true) (now : ℕ) :
    SegmentsInv { s with
      current := s.openSegment
      starts := (missing (foldChangeLog read) s.openSegment).foldl (fun m n => m.insert n now)
        (foldChangeLog read).segmentStarts
      queue := s.queue ++
        (missing (foldChangeLog read) s.openSegment).map fun n => ⟨.changesRotated n now,false⟩
      boot := .resolved read } := by
  obtain ⟨rest,hlog,hrest⟩ := h.read read (.inl hb)
  have hprefix : read <+: s.line := ⟨rest ++ s.queue.map (·.ev),by rw [ConsumerPins.line,hlog,List.append_assoc]⟩
  have hidle := h.idle (by simp [hb])
  obtain ⟨hunread,hqueue⟩ := h.resting (by simp [hb])
  have hmem : ∀ n, n ∈ missing (foldChangeLog read) s.openSegment ↔
      ((foldChangeLog read).currentSegment ≤ n ∧ n ≤ s.openSegment) ∧ ¬(foldChangeLog read).known n := by
    intro n
    simp only [missing,List.mem_filter,List.mem_range'_1,ChangeLogFold.known,Option.isNone_iff_eq_none,
      Option.isSome_iff_ne_none,not_not]
    refine and_congr_left fun _ => ?_
    omega
  have hthere : ∀ n ∈ missing (foldChangeLog read) s.openSegment, s.stored n = true :=
    fun n hn => hwalk n ((hmem n).mp hn).1.1 ((hmem n).mp hn).1.2
  -- a segment that is there and that the fold does not have comes from its current segment on
  have hall : ∀ n, s.stored n = true → (foldChangeLog s.line).known n ∨
      n ∈ missing (foldChangeLog read) s.openSegment := by
    intro n hn
    by_cases hk : (foldChangeLog read).known n
    · exact .inl (known_of_initial hprefix (h.line.not_deleted hn) hk)
    · have hle := ((h.line.of_prefix hprefix).known_or hn).resolve_left hk
      exact .inr ((hmem n).mpr ⟨⟨hle,h.below n hn⟩,hk⟩)
  have hsorted : (missing (foldChangeLog read) s.openSegment).Pairwise (· < ·) :=
    (List.pairwise_lt_range' _).filter _
  obtain ⟨hline,hknown⟩ := h.line.rotations now hsorted (fun n hn => ((hmem n).mp hn).1.2) hall
  have hrecorded : ∀ n, (foldChangeLog (s.line ++
      (missing (foldChangeLog read) s.openSegment).map (.changesRotated · now))).known n →
      s.stored n = true ∨ s.Overlooked n := by
    intro n hn
    rcases of_known_append hn with hk | ⟨at_,hm⟩
    · exact h.recorded n hk
    · obtain ⟨m,hm,he⟩ := List.mem_map.mp hm
      exact .inl ((ChangeLogEvent.changesRotated.inj he).1 ▸ hthere m hm)
  have hlisted : ∀ n, (((missing (foldChangeLog read) s.openSegment).foldl (fun m n => m.insert n now)
      (foldChangeLog read).segmentStarts).get? n).isSome → s.stored n = true ∨ s.Overlooked n := by
    intro n hn
    rcases isSome_foldl_insert hn with hm | hk
    · exact .inl (hthere n hm)
    · -- nothing is deleted while a boot goes on
      refine h.recorded n ?_
      rw [ConsumerPins.line,hlog,List.append_assoc]
      refine known_append (fun hd => ?_) hk
      rcases List.mem_append.mp hd with hd | hd
      · exact hrest n hd
      · obtain ⟨m,hm,he⟩ := List.mem_map.mp hd
        exact deleted_eq_none (hqueue m hm) n he
  have heq : s.line ++ (missing (foldChangeLog read) s.openSegment).map (.changesRotated · now) =
      ({ s with
        queue := s.queue ++
          (missing (foldChangeLog read) s.openSegment).map (⟨.changesRotated · now,false⟩) } :
        ConsumerPins).line := by
    simp [ConsumerPins.line,Function.comp_def]
  rw [heq] at hline hknown hrecorded
  refine { h with
    line := hline
    read := fun read' hr => ?_
    known := fun _ n hn => .inl (hknown n hn)
    idle := fun _ => hidle
    resting := fun _ => ⟨hunread,fun m hm => ?_⟩
    current := le_rfl
    bounds := fun b hb' => (h.bounds b hb').trans h.current
    resolved := fun _ => h.opened
    listed := hlisted
    recorded := hrecorded }
  · rcases hr with hr | hr
    · cases hr
    · exact PinBoot.resolved.inj hr ▸ ⟨rest,hlog,hrest⟩
  · rcases List.mem_append.mp hm with hm | hm
    · exact hqueue m hm
    · obtain ⟨n,-,rfl⟩ := List.mem_map.mp hm
      rfl

end SegmentsInv

lemma segments_step {s t : ConsumerPins} {a : Act} (h : SegmentsInv s) (hallowed : s.Allowed a)
    (hst : Step s a t) : SegmentsInv t := by
  cases hst with
  | @send r before after hc =>
    have hline : LineInv s.stored s.openSegment (s.line ++ [r.event]) := by
      refine h.line.snoc (fun m at_ he => ?_) (fun n he => ?_) <;> cases r <;> cases he
    exact { h.send true hline (fun _ => by cases r <;> rfl) (fun _ _ he => by cases r <;> cases he) with }
  | land hq => exact h.land hq _
  | dropQueued => exact hallowed.elim
  | dropLanded => exact hallowed.elim
  | sweep hw evictedAll pins =>
    exact h.goto (by simp [Sweep.bounds]) (fun _ => .inr ⟨_,_,rfl⟩) (by simp [hw]) (by simp)
  | readConsumers hw =>
    exact h.goto (by simp [Sweep.bounds]) (fun hb => absurd hallowed.1 hb) (by simp [hw]) (by simp)
  | readSegments hw =>
    have hready := h.ready_of_bounds hw (by rintro (he | ⟨_,_,he⟩) <;> cases he)
    exact h.goto (by simp [Sweep.bounds]) (fun hb => absurd hready hb) (by simp [hw]) (by simp)
  | readCurrent hw =>
    have hready := h.ready_of_bounds hw (by rintro (he | ⟨_,_,he⟩) <;> cases he)
    exact h.goto (by simp [Sweep.bounds]) (fun hb => absurd hready hb) (by simp [hw]) (by simp)
  | replan hw checkpoint now =>
    have hready := h.ready_of_bounds hw (by rintro (he | ⟨_,_,he⟩) <;> cases he)
    refine h.goto (fun b hb => ?_) (fun hb => absurd hready hb) (by simp [hw]) (by simp)
    have hle := h.bounds _ (by rw [hw]; exact .head _)
    obtain ⟨n,hn,rfl⟩ := List.mem_map.mp hb
    exact (Nat.succ_le_of_lt (Retention.mem_plan_delete hn).2.1).trans hle
  | decide_ hw deactivating =>
    have hready := h.ready_of_bounds hw (by rintro (he | ⟨_,_,he⟩) <;> cases he)
    have hbounds := h.bounds
    rw [hw] at hbounds
    split_ifs
    · exact h.goto (by simp [Sweep.bounds]) (fun _ => .inl rfl) (by simp [hw]) (by simp)
    · exact h.goto hbounds (fun hb => absurd hready hb) (by simp [hw]) (by simp)
  | @delete n ns hw =>
    have hready := h.ready_of_bounds hw (by rintro (he | ⟨_,_,he⟩) <;> cases he)
    have hbounds := h.bounds
    rw [hw] at hbounds
    refine h.gone (Nat.lt_of_succ_le (hbounds _ (.head _))) hready hbounds (fun m ns' he => ?_) fun m hm => ?_
    · exact (Sweep.forgetting.inj he).1.symm
    · rcases hm with (hl | ⟨_,he⟩) | rfl
      · exact .inl hl
      · simp [hw] at he
      · exact .inr ⟨ns,rfl⟩
  | forget hw => exact h.forget hw
  | @deleteFails n ns hw made =>
    have hready := h.ready_of_bounds hw (by rintro (he | ⟨_,_,he⟩) <;> cases he)
    have hbounds := h.bounds
    rw [hw] at hbounds
    cases made with
    | true =>
      refine h.gone (Nat.lt_of_succ_le (hbounds _ (.head _))) hready (fun b hb => hbounds b (.tail _ hb))
        (by simp) fun m hm => ?_
      rcases hm with (hl | ⟨_,he⟩) | rfl
      · exact .inl (.tail _ hl)
      · simp [hw] at he
      · exact .inl (.head _)
    | false =>
      exact h.goto (fun b hb => hbounds b (.tail _ hb)) (fun hb => absurd hready hb) (by simp [hw]) (by simp)
  | end_ hw => exact h.goto (by simp [Sweep.bounds]) (fun _ => .inl rfl) (by simp [hw]) (by simp)
  | close hready hidle => exact h.close hready hidle
  | begin_ hclosed now => exact h.begin_ hclosed now
  | record hbegan now => exact h.record hbegan now
  | crash => exact h.crash
  | readCatalog hb =>
    have hidle := h.idle (by simp [hb])
    have hresting := h.resting (by simp [hb])
    refine { h with
      read := fun read hr => ?_
      known := by simp
      idle := fun _ => hidle
      resting := fun _ => hresting
      resolved := by simp }
    rcases hr with hr | hr
    · exact PinBoot.folded.inj hr ▸ ⟨[],(List.append_nil _).symm,by simp⟩
    · cases hr
  | initChangeLog hb hwalk now => exact h.initChangeLog hb hwalk now
  | @applyCatalog read hb hpins =>
    exact { h with
      read := by simp
      known := fun _ => h.known (.inl ⟨read,hb⟩)
      idle := fun hb' => absurd rfl hb'
      resting := fun hb' => absurd rfl hb'
      resolved := fun _ => h.resolved (.inl ⟨read,hb⟩) }
  | retrySetup hb =>
    have hidle := h.idle hb
    have hresting := h.resting hb
    exact { h with
      read := by simp
      known := by simp
      idle := fun _ => hidle
      resting := fun _ => hresting
      resolved := by simp }
  | _ => exact { h with }

/-- What holds of the requests and the pins: a consumer has one request in flight at most, and a pin that has passed
its check is not before the one that its consumer has in the line; the pins in memory are, consumer by consumer, those
of a first part of the log; and each pin of the catalog or in flight is in a segment that is there and stays. -/
structure PinsInv (s : ConsumerPins) : Prop where
  booting : s.boot ≠ .ready →
    s.checked = [] ∧ s.landed = [] ∧ s.taken = [] ∧ ∀ m ∈ s.queue, m.ev.request = none
  waiting : ∀ m ∈ s.queue, m.ev.request.isSome → m.waiting = true
  memory : s.consumers = pinsOf s.taken
  parts : s.boot = .ready → ∀ id, of id (requests s.log) = of id s.taken ++ of id s.landed
  single : ∀ id, (of id s.flight).length ≤ 1
  ahead : ∀ id p, .pin id p ∈ s.checked → ∀ old ∈ (pinsOf (requests s.line)).get? id, ¬p.rank < old.rank
  forward : Forward (requests s.line)
  pinned : ∀ id p, s.fold.consumers.get? id = some p →
    s.stored p.segment = true ∧ s.sweep.sparesConsumer p.segment = true
  flying : ∀ id p, .pin id p ∈ s.flight →
    s.stored p.segment = true ∧ s.sweep.sparesConsumer p.segment = true
  read : ∀ read, s.boot = .folded read ∨ s.boot = .resolved read → requests read = requests s.log

lemma requests_line (s : ConsumerPins) : requests s.line = requests s.log ++ s.queued := by
  rw [requests,line,List.filterMap_append,List.filterMap_map]
  rfl

lemma queued_snoc (s : ConsumerPins) (ev : ChangeLogEvent) (waiting : Bool) :
    ({ s with queue := s.queue ++ [⟨ev,waiting⟩] } : ConsumerPins).queued = s.queued ++ ev.request.toList := by
  rw [queued,queued,List.filterMap_append]
  cases h : ev.request <;> simp [h]

/-- What a consumer's single request in flight leaves of `single` and `flying`. -/
lemma single_of_subperm {rs rs' : List ConsumerRequest} (h : rs'.Subperm rs) (hone : ∀ id, (of id rs).length ≤ 1) :
    ∀ id, (of id rs').length ≤ 1 :=
  fun id => (h.filter _).length_le.trans (hone id)

namespace PinsInv
variable {s : ConsumerPins}

/-- A request passes its check: no other one of its consumer is in flight, so that the pin in memory is the one that
the consumer has in the line. -/
lemma check (h : PinsInv s) {r : ConsumerRequest} (hready : s.boot = .ready) (halone : ∀ r' ∈ s.flight, r'.id ≠ r.id)
    (hahead : ∀ id p, r = .pin id p → ∀ old ∈ s.consumers.get? id, ¬p.rank < old.rank)
    (hthere : ∀ id p, r = .pin id p → s.stored p.segment = true ∧ s.sweep.sparesConsumer p.segment = true) :
    PinsInv { s with checked := s.checked ++ [r] } := by
  have hperm : ({ s with checked := s.checked ++ [r] } : ConsumerPins).flight.Perm (r::s.flight) := by
    rw [flight,flight,List.append_assoc,List.append_assoc,List.append_assoc]
    exact List.perm_middle
  refine { h with
    booting := fun hb => absurd hready hb
    single := fun id => ?_
    ahead := fun id p hp => ?_
    flying := fun id p hp => ?_ }
  · rw [of,(hperm.filter _).length_eq,List.filter_cons]
    split_ifs with hid
    · have hnone : of id s.flight = [] :=
        List.filter_eq_nil_iff.mpr fun r' hr' => by simpa [← of_decide_eq_true hid] using halone r' hr'
      rw [of] at hnone
      rw [hnone]
      exact le_rfl
    · exact h.single id
  · rcases List.mem_append.mp hp with hp | hp
    · exact h.ahead id p hp
    · obtain rfl := (List.mem_singleton.mp hp).symm
      have hid : of id s.flight = [] :=
        List.filter_eq_nil_iff.mpr fun r' hr' =>
          fun he => halone r' hr' (of_decide_eq_true he)
      rw [flight,of,List.filter_append,List.filter_append,List.append_eq_nil_iff,List.append_eq_nil_iff] at hid
      have hline : of id (requests s.line) = of id s.taken := by
        rw [requests_line,of,List.filter_append,hid.1.2,List.append_nil]
        have hparts := h.parts hready id
        rwa [of,of,of,hid.2,List.append_nil] at hparts
      have hget : (pinsOf (requests s.line)).get? id = s.consumers.get? id := by
        rw [get?_pinsOf,hline,← get?_pinsOf,← h.memory]
      exact fun old ho => hahead id p rfl old (hget ▸ ho)
  · rcases List.mem_cons.mp (hperm.subset hp) with rfl | hp
    · exact hthere id p rfl
    · exact h.flying id p hp

lemma send (h : PinsInv s) {r : ConsumerRequest} {before after : List ConsumerRequest}
    (hc : s.checked = before ++ r::after) :
    PinsInv { s with checked := before ++ after, queue := s.queue ++ [⟨r.event,true⟩] } := by
  have hready : s.boot = .ready := by_contra fun hb => by simp [(h.booting hb).1] at hc
  have hperm : ({ s with checked := before ++ after, queue := s.queue ++ [⟨r.event,true⟩] } :
      ConsumerPins).flight.Perm s.flight := by
    have hqueued := queued_snoc s r.event true
    rw [request_event] at hqueued
    rw [flight,flight,hc]
    refine List.Perm.append_right _ ?_
    refine (List.Perm.of_eq (congrArg (before ++ after ++ ·) hqueued)).trans ?_
    rw [Option.toList_some,← List.append_assoc]
    refine (List.perm_append_comm).trans ?_
    rw [List.singleton_append,List.append_assoc,List.append_assoc]
    exact List.perm_middle.symm
  have hrequests : requests ({ s with queue := s.queue ++ [⟨r.event,true⟩] } : ConsumerPins).line =
      requests s.line ++ [r] := by
    rw [line_queue,requests_snoc,request_event]
    rfl
  have hothers : ∀ r' ∈ before ++ after, r'.id ≠ r.id := by
    refine alone_of_length (h.single r.id) (hc ▸ ?_)
    exact ((List.sublist_append_left _ _).trans (List.sublist_append_left _ _))
  refine { h with
    booting := fun hb => absurd hready hb
    waiting := fun m hm hs => ?_
    single := single_of_subperm hperm.subperm h.single
    ahead := fun id p hp => ?_
    forward := ?_
    flying := fun id p hp => h.flying id p (hperm.subset hp) }
  · rcases List.mem_append.mp hm with hm | hm
    · exact h.waiting m hm hs
    · exact List.mem_singleton.mp hm ▸ rfl
  · have hmem : .pin id p ∈ before ++ r::after :=
      List.mem_append.mpr ((List.mem_append.mp hp).imp_right fun hm => List.mem_cons_of_mem r hm)
    have hold := h.ahead id p (hc ▸ hmem)
    have hget : (pinsOf (requests s.line ++ [r])).get? id = (pinsOf (requests s.line)).get? id := by
      rw [pinsOf_snoc]
      exact get?_apply_ne (Ne.symm (hothers _ hp)) _
    exact fun old ho => hold old (hget.symm.trans (hrequests ▸ ho))
  · have hforward : Forward (requests s.line ++ [r]) := by
      refine h.forward.snoc fun id p hr => ?_
      subst hr
      exact h.ahead id p (hc ▸ by simp)
    exact hrequests ▸ hforward

/-- An event without a request is queued. -/
lemma queue (h : PinsInv s) (ev : ChangeLogEvent) (hev : ev.request = none) :
    PinsInv { s with queue := s.queue ++ [⟨ev,false⟩] } := by
  have hqueued := queued_snoc s ev false
  rw [hev,Option.toList_none,List.append_nil] at hqueued
  have hflight : ({ s with queue := s.queue ++ [⟨ev,false⟩] } : ConsumerPins).flight = s.flight := by
    rw [flight,hqueued]
    rfl
  have hrequests : requests ({ s with queue := s.queue ++ [⟨ev,false⟩] } : ConsumerPins).line = requests s.line := by
    rw [requests_line,hqueued,requests_line]
  refine { h with
    booting := fun hb => ?_
    waiting := fun m hm hs => ?_
    single := fun id => hflight ▸ h.single id
    ahead := fun id p hp => hrequests ▸ h.ahead id p hp
    forward := hrequests ▸ h.forward
    flying := fun id p hp => h.flying id p (hflight ▸ hp) }
  · obtain ⟨hchecked,hlanded,htaken,hqueue⟩ := h.booting hb
    refine ⟨hchecked,hlanded,htaken,fun m hm => ?_⟩
    rcases List.mem_append.mp hm with hm | hm
    · exact hqueue m hm
    · exact List.mem_singleton.mp hm ▸ hev
  · rcases List.mem_append.mp hm with hm | hm
    · exact h.waiting m hm hs
    · obtain rfl := List.mem_singleton.mp hm
      simp [hev] at hs

lemma land (h : PinsInv s) {m : QueuedEvent} {q : List QueuedEvent} (hq : s.queue = m::q) :
    PinsInv { s with
      queue := q
      log := s.log ++ [m.ev]
      landed := if m.waiting then s.landed ++ m.ev.request.toList else s.landed } := by
  have hmem : m ∈ s.queue := hq ▸ .head _
  have hrest : ∀ m' ∈ q, m' ∈ s.queue := fun m' hm => hq ▸ .tail _ hm
  have hlanded : (if m.waiting then s.landed ++ m.ev.request.toList else s.landed) =
      s.landed ++ m.ev.request.toList := by
    cases hr : m.ev.request with
    | none => simp
    | some r => rw [h.waiting m hmem (by simp [hr]),if_pos rfl]
  have hqueued : s.queued = m.ev.request.toList ++ q.filterMap (·.ev.request) := by
    rw [queued,hq]
    cases hr : m.ev.request <;> simp [hr]
  rw [hlanded]
  have hperm : ({ s with queue := q, log := s.log ++ [m.ev], landed := s.landed ++ m.ev.request.toList } :
      ConsumerPins).flight.Perm s.flight := by
    rw [flight,flight,hqueued,List.append_assoc,List.append_assoc,List.append_assoc]
    refine List.Perm.append_left _ ?_
    rw [← List.append_assoc]
    exact List.perm_append_comm
  have hline : ({ s with queue := q, log := s.log ++ [m.ev], landed := s.landed ++ m.ev.request.toList } :
      ConsumerPins).line = s.line := line_land s hq
  refine { h with
    booting := fun hb => ?_
    waiting := fun m' hm => h.waiting m' (hrest m' hm)
    parts := fun hb id => ?_
    single := single_of_subperm hperm.subperm h.single
    ahead := fun id p hp => hline ▸ h.ahead id p hp
    forward := hline ▸ h.forward
    pinned := fun id p hp => ?_
    flying := fun id p hp => h.flying id p (hperm.subset hp)
    read := fun read hb => ?_ }
  · obtain ⟨hchecked,hnone,htaken,hqueue⟩ := h.booting hb
    refine ⟨hchecked,?_,htaken,fun m' hm => hqueue m' (hrest m' hm)⟩
    rw [hnone,hqueue m hmem]
    rfl
  · rw [requests_snoc,of,List.filter_append,of,of,List.filter_append,← List.append_assoc]
    exact congrArg (· ++ _) (h.parts hb id)
  · have hold := h.pinned id p
    simp only [fold,fold_consumers,requests_snoc] at hp hold
    cases hr : m.ev.request with
    | none =>
      rw [hr] at hp
      exact hold (by simpa using hp)
    | some r =>
      rw [hr,Option.toList_some,pinsOf_snoc] at hp
      by_cases hid : r.id = id
      · cases r with
        | pin id' p' =>
          rw [← hid] at hp
          rw [← Option.some.inj ((AssocMap.get?_insert_self _ _ _).symm.trans hp)]
          refine h.flying id' p' ?_
          rw [flight,hqueued,hr]
          simp
        | remove id' =>
          rw [← hid] at hp
          exact absurd ((AssocMap.get?_erase_self _ _).symm.trans hp) (by simp)
      · exact hold ((get?_apply_ne hid _).symm.trans hp)
  · have hnone := (h.booting (by rintro hr; simp [hr] at hb)).2.2.2 m hmem
    rw [requests_snoc,hnone,Option.toList_none,List.append_nil]
    exact h.read read hb

/-- A request registers: the only one of its consumer that has landed. -/
lemma register (h : PinsInv s) {r : ConsumerRequest} {before after : List ConsumerRequest}
    (hl : s.landed = before ++ r::after) :
    PinsInv { s with
      landed := before ++ after
      consumers := r.apply s.consumers
      taken := s.taken ++ [r] } := by
  have hready : s.boot = .ready := by_contra fun hb => by simp [(h.booting hb).2.1] at hl
  have hothers : ∀ r' ∈ before ++ after, r'.id ≠ r.id :=
    alone_of_length (h.single r.id) (hl ▸ List.sublist_append_right _ _)
  have hsub : ({ s with landed := before ++ after, consumers := r.apply s.consumers, taken := s.taken ++ [r] } :
      ConsumerPins).flight.Sublist s.flight := by
    rw [flight,flight,hl]
    exact ((List.sublist_cons_self _ _).append_left _).append_left _
  refine { h with
    booting := fun hb => absurd hready hb
    memory := ?_
    parts := fun hb id => ?_
    single := single_of_subperm hsub.subperm h.single
    flying := fun id p hp => h.flying id p (hsub.subset hp) }
  · exact (congrArg r.apply h.memory).trans (pinsOf_snoc _ _).symm
  · refine (h.parts hb id).trans ?_
    rw [hl,of_snoc]
    by_cases hid : r.id = id
    · have hnone : of id before = [] := List.filter_eq_nil_iff.mpr fun r' hr' => by
        simpa [hid] using hothers r' (List.mem_append_left _ hr')
      simp only [of,List.filter_append,List.filter_cons,hid] at hnone ⊢
      simp [hnone]
    · simp [of,hid]

/-- A request is given up before it is sent. -/
lemma dropChecked (h : PinsInv s) {r : ConsumerRequest} {before after : List ConsumerRequest}
    (hc : s.checked = before ++ r::after) : PinsInv { s with checked := before ++ after } := by
  have hsub : ({ s with checked := before ++ after } : ConsumerPins).flight.Sublist s.flight := by
    rw [flight,flight,hc]
    exact (((List.sublist_cons_self _ _).append_left _).append_right _).append_right _
  refine { h with
    booting := fun hb => absurd (h.booting hb).1 (by simp [hc])
    single := single_of_subperm hsub.subperm h.single
    ahead := fun id p hp => ?_
    flying := fun id p hp => h.flying id p (hsub.subset hp) }
  exact h.ahead id p (hc ▸ by simpa using (List.mem_append.mp hp).imp_right fun hm => List.mem_cons_of_mem r hm)

/-- The sweep goes on. -/
lemma goto (h : PinsInv s) {w : Sweep}
    (hw : ∀ n, s.sweep.sparesConsumer n = true → w.sparesConsumer n = true) :
    PinsInv { s with sweep := w } :=
  { h with
    pinned := fun id p hp => (h.pinned id p hp).imp_right (hw p.segment)
    flying := fun id p hp => (h.flying id p hp).imp_right (hw p.segment) }

/-- The sweep deletes a segment. -/
lemma gone (h : PinsInv s) {n : ℕ} {ns : List ℕ} (hw : s.sweep = .deleting (n::ns)) :
    PinsInv { s with stored := Function.update s.stored n false } := by
  have hkept : ∀ m, s.stored m = true ∧ s.sweep.sparesConsumer m = true →
      Function.update s.stored n false m = true ∧ s.sweep.sparesConsumer m = true := by
    rintro m ⟨hstored,hspares⟩
    refine ⟨?_,hspares⟩
    have hlt : n < m := by
      simp only [hw,Sweep.sparesConsumer,Sweep.sparesShape,List.all_cons,Bool.and_eq_true,
        decide_eq_true_eq] at hspares
      exact hspares.1
    exact (Function.update_of_ne hlt.ne' _ _).trans hstored
  exact { h with
    pinned := fun id p hp => hkept _ (h.pinned id p hp)
    flying := fun id p hp => hkept _ (h.flying id p hp) }

/-- The sweep reads the pins: those of the catalog are in memory or in flight. -/
lemma readConsumers (h : PinsInv s) {evictedAll : Bool} {pins : List SegmentPin} (hready : s.boot = .ready)
    (hflying : ∀ id p, .pin id p ∈ s.flight →
      (Sweep.readPins evictedAll (pins ++ s.consumerPins)).sparesConsumer p.segment = true) :
    PinsInv { s with sweep := .readPins evictedAll (pins ++ s.consumerPins) } := by
  refine { h with
    pinned := fun id p hp => ⟨(h.pinned id p hp).1,?_⟩
    flying := fun id p hp => ⟨(h.flying id p hp).1,hflying id p hp⟩ }
  dsimp only
  have hparts := h.parts hready id
  simp only [fold,fold_consumers] at hp
  rw [get?_pinsOf,hparts] at hp
  rcases List.eq_nil_or_concat (of id s.landed) with hnone | ⟨rs,r,hlast⟩
  · rw [hnone,List.append_nil,← get?_pinsOf,← h.memory] at hp
    have hmem : (⟨.consumer id,p.segment,true⟩ : SegmentPin) ∈ s.consumerPins :=
      List.mem_map.mpr ⟨(id,p),(AssocMap.mem_entries _ _ _).mpr hp,rfl⟩
    have hany : (pins ++ s.consumerPins).any (·.segment ≤ p.segment) = true :=
      List.any_eq_true.mpr ⟨_,List.mem_append_right _ hmem,by simp⟩
    rw [Sweep.sparesConsumer,Sweep.sparesShape,hany,Bool.or_true]
    simp
  · -- the last request that has landed made the pin
    have hr : r ∈ of id s.landed := hlast ▸ by simp
    obtain ⟨hmem,hid⟩ := List.mem_filter.mp hr
    obtain rfl := of_decide_eq_true hid
    rw [hlast,List.concat_eq_append,← List.append_assoc,pinsOf_snoc] at hp
    cases r with
    | pin id' p' =>
      obtain rfl := Option.some.inj ((AssocMap.get?_insert_self _ _ _).symm.trans hp)
      exact hflying id' p' (List.mem_append_right _ hmem)
    | remove id' => exact absurd ((AssocMap.get?_erase_self _ _).symm.trans hp) (by simp)

lemma crash (h : PinsInv s) :
    PinsInv { s with
      current := 0
      starts := .empty
      consumers := .empty
      rotation := .idle
      boot := .starting
      sweep := .idle
      checked := []
      queue := []
      landed := []
      taken := []
      lost := s.lost ++ s.unrecorded } where
  booting := by simp
  waiting := by simp
  memory := rfl
  parts := by simp
  single := fun _ => Nat.zero_le _
  ahead := by simp
  forward := h.forward.of_prefix (by simp [requests,ConsumerPins.line])
  pinned := fun id p hp => ⟨(h.pinned id p hp).1,rfl⟩
  flying := by simp [flight,queued]
  read := by simp

lemma initChangeLog (h : PinsInv s) {read : List ChangeLogEvent} (hb : s.boot = .folded read)
    (ns : List ℕ) (now : ℕ) (starts : AssocMap ℕ ℕ) :
    PinsInv { s with
      current := s.openSegment
      starts := starts
      queue := s.queue ++ ns.map fun n => ⟨.changesRotated n now,false⟩
      boot := .resolved read } := by
  obtain ⟨hchecked,hlanded,htaken,hqueue⟩ := h.booting (by simp [hb])
  have hnone : ∀ m ∈ s.queue ++ ns.map fun n => (⟨.changesRotated n now,false⟩ : QueuedEvent),
      m.ev.request = none := by
    intro m hm
    rcases List.mem_append.mp hm with hm | hm
    · exact hqueue m hm
    · obtain ⟨n,-,rfl⟩ := List.mem_map.mp hm
      rfl
  have hqueued : (s.queue ++ ns.map fun n => (⟨.changesRotated n now,false⟩ : QueuedEvent)).filterMap
      (·.ev.request) = [] := List.filterMap_eq_nil_iff.mpr hnone
  refine { h with
    booting := fun _ => ⟨hchecked,hlanded,htaken,hnone⟩
    waiting := fun m hm hs => by simp [hnone m hm] at hs
    parts := by simp
    single := fun id => by simp [flight,queued,hqueued,hchecked,hlanded,of]
    ahead := by simp [hchecked]
    forward := ?_
    flying := by simp [flight,queued,hqueued,hchecked,hlanded]
    read := fun read' hr => ?_ }
  · simpa [ConsumerPins.line,requests,ChangeLogEvent.request,Function.comp_def] using h.forward
  · rcases hr with hr | hr
    · cases hr
    · exact PinBoot.resolved.inj hr ▸ h.read read (.inl hb)

/-- The boot installs the pins. -/
lemma applyCatalog (h : PinsInv s) {read : List ChangeLogEvent} (hb : s.boot = .resolved read) :
    PinsInv { s with
      consumers := (foldChangeLog read).consumers
      boot := .ready
      taken := read.filterMap (·.request) } := by
  have hread := h.read read (.inr hb)
  obtain ⟨-,hlanded,-,-⟩ := h.booting (by simp [hb])
  refine { h with
    booting := by simp
    memory := fold_consumers read
    parts := fun _ id => ?_
    read := by simp }
  dsimp only
  rw [hlanded,← hread]
  exact (List.append_nil _).symm

end PinsInv

lemma pins_step {s t : ConsumerPins} {a : Act} (hseg : SegmentsInv s) (h : PinsInv s) (hallowed : s.Allowed a)
    (hst : Step s a t) : PinsInv t := by
  cases hst with
  | @checkPin id p hid hcurrent hretained hforward hnew =>
    obtain ⟨hready,halone,hsegment⟩ := hallowed
    obtain ⟨hseen,hspares⟩ := hsegment id p rfl
    have hstored : s.stored p.segment = true := by
      rcases hretained with he | hlisted
      · exact he ▸ hseg.resolved (.inr hready)
      · exact (hseg.listed _ hlisted).resolve_right hseen
    refine h.check hready halone (fun id' p' he => ?_) fun id' p' he => ?_
    · obtain ⟨rfl,rfl⟩ := ConsumerRequest.pin.inj he
      exact hforward
    · obtain ⟨rfl,rfl⟩ := ConsumerRequest.pin.inj he
      exact ⟨hstored,hspares⟩
  | checkRemove => exact h.check hallowed.1 hallowed.2.1 (fun _ _ he => by cases he) fun _ _ he => by cases he
  | send hc => exact h.send hc
  | land hq => exact h.land hq
  | register hl => exact h.register hl
  | dropChecked hc => exact h.dropChecked hc
  | dropQueued => exact hallowed.elim
  | dropLanded => exact hallowed.elim
  | sweep hw evictedAll pins => exact h.goto fun _ _ => rfl
  | readConsumers hw => exact h.readConsumers hallowed.1 fun id p hp => hallowed.2 id p hp _ _ hw
  | readSegments hw => exact h.goto fun n hn => by rwa [hw] at hn
  | readCurrent hw =>
    refine h.goto fun n hn => ?_
    simp only [hw,Sweep.sparesConsumer,Sweep.sparesShape] at hn ⊢
    rw [hn,Bool.true_or]
  | @replan evictedAll pins segments current hw checkpoint now =>
    refine h.goto fun n hn => ?_
    simp only [hw,Sweep.sparesConsumer,Sweep.sparesShape,Bool.or_eq_true,List.any_eq_true,List.all_eq_true,
      decide_eq_true_eq] at hn ⊢
    rcases hn with (hn | ⟨pin,hpin,hle⟩) | hle
    · exact .inl hn
    · exact .inr fun m hm => ((Retention.mem_plan_delete hm).2.2 pin hpin).trans_le hle
    · exact .inr fun m hm => (Retention.mem_plan_delete hm).2.1.trans_le hle
  | @decide_ evictedAll delete hw deactivating =>
    refine h.goto fun n hn => ?_
    simp only [hw,Sweep.sparesConsumer,Sweep.sparesShape] at hn
    split_ifs with hoff
    · rfl
    · cases evictedAll with
      | true => exact hn
      | false => exact absurd rfl hoff
  | @delete n ns hw =>
    refine (h.gone hw).goto fun m hm => ?_
    simp only [hw,Sweep.sparesConsumer,Sweep.sparesShape,List.all_cons,Bool.and_eq_true] at hm ⊢
    exact hm.2
  | @forget n ns hw =>
    have hsent := (h.queue (.changesSegmentDeleted n) rfl).goto (w := .deleting ns) fun m hm => by
      rwa [hw] at hm
    exact { hsent with }
  | @deleteFails n ns hw made =>
    have hspares : ∀ m, s.sweep.sparesConsumer m = true → (Sweep.deleting ns).sparesConsumer m = true := by
      intro m hm
      simp only [hw,Sweep.sparesConsumer,Sweep.sparesShape,List.all_cons,Bool.and_eq_true] at hm ⊢
      exact hm.2
    cases made with
    | true => exact { (h.gone hw).goto hspares with }
    | false => exact { h.goto hspares with }
  | end_ hw => exact h.goto fun _ _ => rfl
  | close hready hidle =>
    have hkept : ∀ m, s.stored m = true ∧ s.sweep.sparesConsumer m = true →
        Function.update s.stored (s.openSegment+1) true m = true ∧ s.sweep.sparesConsumer m = true := by
      rintro m ⟨hstored,hspares⟩
      refine ⟨?_,hspares⟩
      by_cases he : m = s.openSegment+1
      · simp [he]
      · exact (Function.update_of_ne he _ _).trans hstored
    exact { h with
      pinned := fun id p hp => hkept _ (h.pinned id p hp)
      flying := fun id p hp => hkept _ (h.flying id p hp) }
  | begin_ => exact { h with }
  | record hbegan now => exact { h.queue (.changesRotated s.openSegment now) rfl with }
  | crash => exact h.crash
  | readCatalog hb =>
    refine { h with
      booting := fun _ => h.booting (by simp [hb])
      parts := by simp
      read := fun read hr => ?_ }
    rcases hr with hr | hr
    · exact PinBoot.folded.inj hr ▸ rfl
    · cases hr
  | initChangeLog hb hwalk now => exact h.initChangeLog hb _ now _
  | applyCatalog hb hpins => exact h.applyCatalog hb
  | retrySetup hb =>
    exact { h with
      booting := fun _ => h.booting hb
      parts := by simp
      read := by simp }

lemma inv_new : SegmentsInv new ∧ PinsInv new := by
  have hnil : ∀ {α : Type} {a : α} {l l' : List α}, [] ≠ l ++ a::l' := by simp
  constructor
  · constructor
    case line => exact ⟨fun _ _ _ _ he => absurd he hnil,fun _ hn => (by cases hn),fun _ _ hn => (by cases hn)⟩
    case below => exact fun n hn => (eq_of_beq hn).le
    case opened => rfl
    case listed => exact fun _ hn => by cases hn
    case recorded => exact fun _ hn => by cases hn
    all_goals simp [new,Sweep.bounds,Sweep.Unread]
  · constructor
    case forward => exact fun _ _ _ _ he => absurd he hnil
    case pinned => exact fun id p hp => by cases hp
    case memory => rfl
    case single => exact fun _ => Nat.zero_le _
    all_goals simp [new,flight,queued]

lemma inv_of_guarded {s : ConsumerPins} (h : GuardedSteps new s) : SegmentsInv s ∧ PinsInv s := by
  induction h with
  | refl => exact inv_new
  | tail _ hst ih =>
    obtain ⟨a,hallowed,hst⟩ := hst
    exact ⟨segments_step ih.1 hallowed hst,pins_step ih.1 ih.2 hallowed hst⟩

lemma GuardedSteps.other {s t u : ConsumerPins} (h : GuardedSteps s t) (hst : Step t .other u) :
    GuardedSteps s u := h.tail ⟨.other,trivial,hst⟩

lemma GuardedSteps.steps {s t : ConsumerPins} (h : GuardedSteps s t) : Steps s t := by
  induction h with
  | refl => exact .refl
  | tail _ hst ih => exact ih.tail (hst.imp fun _ h => h.2)

/-- The first boot has ended. -/
def sampleReady : ConsumerPins :=
  { new with
    starts := AssocMap.empty.insert 0 100
    boot := .ready
    log := [.changesRotated 0 100] }

lemma sampleReady_run : GuardedSteps new sampleReady := by
  have hfolded := (GuardedSteps.other .refl (.readCatalog new rfl)).other
    (.initChangeLog _ rfl (fun n _ hn => beq_iff_eq.mpr (Nat.le_zero.mp hn)) 100)
  have hready := hfolded.other (.applyCatalog _ rfl (fun e he => by cases he))
  exact hready.other (@Step.land _ ⟨.changesRotated 0 100,false⟩ [] rfl)

/-- A pin has come through. -/
def samplePinned : ConsumerPins :=
  { sampleReady with
    consumers := AssocMap.empty.insert "kernel" ⟨0,"5"⟩
    taken := [.pin "kernel" ⟨0,"5"⟩]
    log := [.changesRotated 0 100,.consumerPinned "kernel" ⟨0,"5"⟩] }

lemma checkPin_first (s : ConsumerPins) (offset : String) (hnone : s.consumers = .empty)
    (hcurrent : s.current = 0) :
    Step s (.check (.pin "kernel" ⟨0,offset⟩)) { s with checked := s.checked ++ [.pin "kernel" ⟨0,offset⟩] } :=
  .checkPin s (by decide) (Nat.zero_le _) (.inl hcurrent.symm) (by simp [hnone]) (by simp [hnone])

end ConsumerPins
end ElectricCircuits
