import ElectricCircuits.Lib.Mailbox
import ElectricCircuits.Lifecycle.Engine

/-! Dormant shapes between the engine and its sequencer: the parking of an idle shape and its wakes, step by step
between their awaits, the commands that they leave in the sequencer's queue, and where the sequencer routes. -/
namespace ElectricCircuits
open Mailbox

/-- What the engine sends to the sequencer about a shape. An attempt waits for the answer. -/
inductive SequencerCmd where
  | beginShape (attempt : ℕ)
  | activateShape (attempt : ℕ) (gate : SnapshotGate)
  | abortShape
  | deactivateShape (attempt : ℕ)
  | removeShape

/-- What a command leaves of pending and routed, at most. -/
def SequencerCmd.effect (r : Bool × Bool) : SequencerCmd → Bool × Bool
  | .beginShape _ => (true,r.2)
  | .activateShape _ _ => (false,r.2 || r.1)
  | .abortShape => (false,r.2)
  | .deactivateShape _ => (r.1,false)
  | .removeShape => (false,false)

namespace Dormancy

/-- The life of a shape, with the attempt whose channel a transition tells its end on. -/
inductive Life where
  | active
  | deactivating (attempt : ℕ)
  | dormant (parked : Parked)
  | reactivating (attempt : ℕ) (resume : LogPosition)

/-- How a wake fails: the change log cannot be asked; it cannot be resumed, or only at too high a price; what was
buffered meanwhile is lost; the segment is gone; or anything else. -/
inductive Failure where
  | headUnavailable
  | unresumable
  | overBudget
  | overflow
  | streamGone
  | other
  deriving DecidableEq

/-- Failures that retire the shape. -/
def Failure.evicts : Failure → Option EvictReason
  | .unresumable | .streamGone => some .changeLogRetention
  | .overBudget | .overflow => some .replayBudget
  | .headUnavailable | .other => none

/-- Where a parking or a wake is. -/
inductive Stage where
  | deactivating
  | deactivateSent
  | deactivated (resume : Option Parked)
  | admitting (parked : Parked)
  | resuming (parked : Parked)
  | lookedUp (parked : Parked) (gens : ℕ)
  | beginSent (parked : Parked) (gens : ℕ)
  | replaying (parked : Parked) (gens : ℕ)
  | replayed (parked : Parked) (gens : ℕ)
  | activateSent (parked : Parked) (gens : ℕ)
  | activated (parked : Parked) (gens : ℕ)
  | settling (parked : Parked) (outcome : Except Failure Unit)
  | evicting (reason : EvictReason)

namespace Stage

/-- A failed wake has put the shape back before it evicts it. -/
def inTransition : Stage → Bool
  | evicting _ => false
  | _ => true

def isReplaying : Stage → Bool
  | replaying _ _ => true
  | _ => false

/-- The acknowledgement of `BeginShape`. -/
def begun : Stage → Stage
  | beginSent parked gens => replaying parked gens
  | st => st

/-- The answer to `ActivateShape`. -/
def ready (answer : Except Failure Unit) : Stage → Stage
  | activateSent parked gens =>
    match answer with
    | .ok _ => activated parked gens
    | .error e => settling parked (.error e)
  | st => st

/-- The answer to `DeactivateShape`. -/
def handedBack (resume : Option Parked) : Stage → Stage
  | deactivateSent => deactivated resume
  | st => st

end Stage

/-- What the sequencer has of a shape: whether it is pending or routed, by which gate, and where its routing stopped
last. -/
structure Routing where
  pending : Bool
  routed : Option SnapshotGate
  stopped : Option LogPosition

/-- The sequencer stops routing. -/
def Routing.stop (r : Routing) (pos : LogPosition) : Routing :=
  { r with routed := none, stopped := if r.routed.isSome then some pos else r.stopped }

/-- A shape: its record and claims, its life, the attempts at a transition, and its routing. -/
structure Shape where
  born : Bool
  parkable : Bool
  registered : Bool
  claims : ℕ
  life : Option Life
  attempts : ℕ → Option Stage
  routing : Routing

namespace Shape

def unborn : Shape := ⟨false,false,false,0,none,fun _ => none,⟨false,none,none⟩⟩

def setStage (sh : Shape) (n : ℕ) (st : Option Stage) : Shape :=
  { sh with attempts := Function.update sh.attempts n st }

/-- A shape that is still tracked gets a life. -/
def setLife (sh : Shape) (life : Life) : Shape := { sh with life := sh.life.map fun _ => life }

/-- An attempt begins: the life names it. -/
def start (sh : Shape) (n : ℕ) (life : Life) (st : Stage) : Shape := { sh.setStage n (some st) with life := some life }

def retired (sh : Shape) : Shape := { sh with registered := false, claims := 0, life := none }

/-- `purge_shape`, with the commands that it sends. -/
def purgeShape (sh : Shape) : Shape × List SequencerCmd := (sh.retired,if sh.registered then [.removeShape] else [])

/-- A dormant shape, or one that cannot be parked and was idle for long enough. -/
def evictable (sh : Shape) (idle : Bool) : Bool :=
  match sh.life with
  | some (.dormant _) => true
  | some .active => !sh.parkable && idle
  | _ => false

/-- The claims on a dormant shape that cannot be replayed are those of joins that will be told so. -/
def provisional (sh : Shape) (reason : EvictReason) : Bool :=
  match sh.life with
  | some (.dormant _) => reason.replay
  | _ => false

/-- `evict_shape`. -/
def evictShape (sh : Shape) (reason : EvictReason) (idle : Bool) : Shape × List SequencerCmd :=
  if !sh.registered || !sh.evictable idle || (!sh.provisional reason && 0 < sh.claims) then (sh,[])
  else (sh.retired,if sh.parkable then [] else [.removeShape])

/-- An attempt gets its answer. -/
def answer (sh : Shape) (n : ℕ) (f : Stage → Stage) : Shape := sh.setStage n ((sh.attempts n).map f)

/-- The sequencer handles a command. A `BeginShape` misses where the table is unknown, an `ActivateShape` where the
buffer has overflowed. -/
def handle (sh : Shape) (pos : LogPosition) (misses : Bool) : SequencerCmd → Shape
  | .beginShape n =>
    { sh with routing := { sh.routing with pending := sh.routing.pending || !misses } }.answer n .begun
  | .activateShape n gate =>
    if sh.routing.pending = false then sh.answer n (.ready (.error .other))
    else if misses then { sh with routing := { sh.routing with pending := false } }.answer n (.ready (.error .overflow))
    else
      { sh with routing := { sh.routing with pending := false, routed := some gate } }.answer n (.ready (.ok ()))
  | .abortShape => { sh with routing := { sh.routing with pending := false } }
  | .deactivateShape n =>
    { sh with routing := sh.routing.stop pos }.answer n
      (.handedBack (sh.routing.routed.map fun gate => ⟨pos,gate⟩))
  | .removeShape => { sh with routing := { sh.routing with pending := false }.stop pos }

/-- The sequencer is gone, and its executors with it. -/
def halt (sh : Shape) (pos : LogPosition) : Shape :=
  { sh with routing := { sh.routing with pending := false }.stop pos }

end Shape

/-- What the condition on runs is about. -/
inductive ShapeAct where
  | purge
  | closing (attempt : ℕ)
  | other

/-- One critical section of the engine about a shape, or what an attempt does between two awaits, and the commands
that are sent. A send fails when the sequencer is gone, and so does the wait for an answer. -/
inductive ShapeStep (gone : Bool) (gens : ℕ) : Shape → ShapeAct → Shape → List SequencerCmd → Prop
  | create {sh} (parkable : Bool) (gate : SnapshotGate) (hborn : sh.born = false) (halive : gone = false) :
    ShapeStep gone gens sh .other
      ⟨true,parkable,true,1,some .active,sh.attempts,⟨false,some gate,none⟩⟩ []
  | claim {sh} (hreg : sh.registered = true) :
    ShapeStep gone gens sh .other { sh with claims := sh.claims+1 } []
  | release {sh} : ShapeStep gone gens sh .other { sh with claims := sh.claims-1 } []
  | deactivate {sh n} (hreg : sh.registered = true) (hpark : sh.parkable = true) (hclaims : sh.claims = 0)
    (hlife : sh.life = some .active) (hfree : sh.attempts n = none) :
    ShapeStep gone gens sh .other (sh.start n (.deactivating n) .deactivating) []
  | sendDeactivate {sh n} (hn : sh.attempts n = some .deactivating) :
    ShapeStep gone gens sh .other
      (sh.setStage n (some (if gone then .deactivated none else .deactivateSent))) [.deactivateShape n]
  | dropDeactivate {sh n} (hn : sh.attempts n = some .deactivateSent) (hgone : gone = true) :
    ShapeStep gone gens sh .other (sh.setStage n (some (.deactivated none))) []
  | parked {sh n parked} (hn : sh.attempts n = some (.deactivated (some parked))) :
    ShapeStep gone gens sh .other ((sh.setStage n none).setLife (.dormant parked)) []
  | leftActive {sh n} (hn : sh.attempts n = some (.deactivated none)) :
    ShapeStep gone gens sh .other ((sh.setStage n none).setLife .active) []
  | touch {sh n parked} (hlife : sh.life = some (.dormant parked)) (hfree : sh.attempts n = none) :
    ShapeStep gone gens sh .other (sh.start n (.reactivating n parked.resume) (.admitting parked)) []
  | admitted {sh n parked} (hn : sh.attempts n = some (.admitting parked)) :
    ShapeStep gone gens sh .other (sh.setStage n (some (.resuming parked))) []
  | refuse {sh n parked e} (hn : sh.attempts n = some (.admitting parked))
    (he : e ∈ [Failure.headUnavailable,.unresumable,.overBudget]) :
    ShapeStep gone gens sh .other (sh.setStage n (some (.settling parked (.error e)))) []
  | lookUp {sh n parked} (hn : sh.attempts n = some (.resuming parked)) (hreg : sh.registered = true) :
    ShapeStep gone gens sh .other (sh.setStage n (some (.lookedUp parked gens))) []
  | lookUpFails {sh n parked} (hn : sh.attempts n = some (.resuming parked)) :
    ShapeStep gone gens sh .other (sh.setStage n (some (.settling parked (.error .other)))) []
  | beginShape {sh n parked g} (hn : sh.attempts n = some (.lookedUp parked g)) :
    ShapeStep gone gens sh .other
      (sh.setStage n (some (if gone then .settling parked (.error .other) else .beginSent parked g)))
      [.beginShape n]
  | dropBegin {sh n parked g} (hn : sh.attempts n = some (.beginSent parked g)) (hgone : gone = true) :
    ShapeStep gone gens sh .other (sh.setStage n (some (.settling parked (.error .other)))) []
  | replayed {sh n parked g} (hn : sh.attempts n = some (.replaying parked g)) :
    ShapeStep gone gens sh .other (sh.setStage n (some (.replayed parked g))) []
  | replayFails {sh n parked g e} (hn : sh.attempts n = some (.replaying parked g))
    (he : e ∈ [Failure.streamGone,.other]) :
    ShapeStep gone gens sh .other (sh.setStage n (some (.settling parked (.error e)))) [.abortShape]
  | activateShape {sh n parked g} (hn : sh.attempts n = some (.replayed parked g)) :
    ShapeStep gone gens sh .other
      (sh.setStage n (some (if gone then .settling parked (.error .other) else .activateSent parked g)))
      [.activateShape n parked.gate]
  | dropActivate {sh n parked g} (hn : sh.attempts n = some (.activateSent parked g)) (hgone : gone = true) :
    ShapeStep gone gens sh .other (sh.setStage n (some (.settling parked (.error .other)))) []
  | unchanged {sh n parked} (hn : sh.attempts n = some (.activated parked gens)) :
    ShapeStep gone gens sh (.closing n) (sh.setStage n (some (.settling parked (.ok ())))) []
  | changed {sh n parked g} (hn : sh.attempts n = some (.activated parked g)) (hg : g ≠ gens) :
    ShapeStep gone gens sh (.closing n) (sh.setStage n (some (.settling parked (.error .other)))) [.removeShape]
  | woken {sh n parked} (hn : sh.attempts n = some (.settling parked (.ok ()))) :
    ShapeStep gone gens sh .other ((sh.setStage n none).setLife .active) []
  | stayDormant {sh n parked e} (hn : sh.attempts n = some (.settling parked (.error e))) :
    ShapeStep gone gens sh .other ((sh.setStage n (e.evicts.map .evicting)).setLife (.dormant parked)) []
  | evictAfter {sh n reason} (idle : Bool) (hn : sh.attempts n = some (.evicting reason)) :
    ShapeStep gone gens sh .other ((sh.setStage n none).evictShape reason idle).1
      ((sh.setStage n none).evictShape reason idle).2
  | evict {sh} (reason : EvictReason) (idle : Bool) :
    ShapeStep gone gens sh .other (sh.evictShape reason idle).1 (sh.evictShape reason idle).2
  | purge {sh} : ShapeStep gone gens sh .purge sh.purgeShape.1 sh.purgeShape.2

/-- No retirement comes between a wake's look at the shape's record and its `BeginShape`, and a wake that finds the
schema changed at its end finds the shape retired. -/
def Shape.Heeds (sh : Shape) (gens : ℕ) : ShapeAct → Prop
  | .purge => ∀ n parked g, sh.attempts n ≠ some (.lookedUp parked g)
  | .closing n => ∀ parked g, sh.attempts n = some (.activated parked g) → g = gens ∨ sh.life = none
  | .other => True

end Dormancy

/-- All shapes, the queue of the sequencer, the position it has published, whether it is gone, and the schema
generation that each shape's table has. -/
structure Dormancy (ι : Type) where
  shapes : ι → Dormancy.Shape
  queue : List (ι × SequencerCmd)
  pos : LogPosition
  gone : Bool
  gens : ι → ℕ

namespace Dormancy
variable {ι : Type}

def start (pos : LogPosition) : Dormancy ι := ⟨fun _ => .unborn,[],pos,false,fun _ => 0⟩

inductive Act (ι : Type) where
  | shape (i : ι) (a : ShapeAct)
  | sequencer

section Step
variable [DecidableEq ι]

/-- A step of the engine, a command that the sequencer handles, changes that it processes, a schema or an epoch that
changes, and the end of the sequencer. -/
inductive Step : Dormancy ι → Act ι → Dormancy ι → Prop
  | shape {s i a sh cmds} (h : ShapeStep s.gone (s.gens i) (s.shapes i) a sh cmds) :
    Step s (.shape i a) { s with
      shapes := Function.update s.shapes i sh
      queue := s.queue ++ (if s.gone then [] else cmds).map fun c => (i,c) }
  | handle {s i c rest} (misses : Bool) (hqueue : s.queue = (i,c) :: rest) :
    Step s .sequencer { s with
      shapes := Function.update s.shapes i ((s.shapes i).handle s.pos misses c)
      queue := rest }
  | advance {s} (pos : LogPosition) (halive : s.gone = false) : Step s .sequencer { s with pos := pos }
  | drift {s gens} (hgens : ∀ i, s.gens i ≤ gens i) : Step s .sequencer { s with gens := gens }
  | halt {s} (halive : s.gone = false) : Step s .sequencer { s with
      shapes := fun i => (s.shapes i).halt s.pos
      queue := []
      gone := true }

def Run (s s' : Dormancy ι) : Prop := Relation.ReflTransGen (fun s s' => ∃ a, Step s a s') s s'

def Heeds (s : Dormancy ι) : Act ι → Prop
  | .shape i a => (s.shapes i).Heeds (s.gens i) a
  | .sequencer => True

def HeedingRun (s s' : Dormancy ι) : Prop :=
  Relation.ReflTransGen (fun s s' => ∃ a, Step s a s' ∧ s.Heeds a) s s'

/-- No attempt at a transition is under way for a shape, and no command about it. -/
def Quiet (s : Dormancy ι) (i : ι) : Prop :=
  (∀ n st, (s.shapes i).attempts n = some st → st.inTransition = false) ∧ box s.queue i = []

/-- Shapes and sequencer agree. -/
structure Consistent (s : Dormancy ι) : Prop where
  single : ∀ i n m st st', (s.shapes i).attempts n = some st → (s.shapes i).attempts m = some st' →
    st.inTransition = true → st'.inTransition = true → n = m
  once : ∀ i n m st st', (s.shapes i).attempts n = some st → (s.shapes i).attempts m = some st' →
    st.isReplaying = true → st'.isReplaying = true → n = m
  settled : ∀ i, (∀ n st, (s.shapes i).attempts n = some st → st.inTransition = false) →
    (s.shapes i).life = none ∨ (s.shapes i).life = some .active ∨
      ∃ parked, (s.shapes i).life = some (.dormant parked)
  routed : ∀ i, s.Quiet i → s.gone = false →
    ((s.shapes i).routing.routed.isSome = true ↔ (s.shapes i).life = some .active)
  resume : ∀ i parked, (s.shapes i).life = some (.dormant parked) →
    (s.shapes i).routing.stopped = some parked.resume

end Step

namespace Routing
variable (gone : Bool) (cmds : List SequencerCmd) (r : Routing)

/-- After the commands that wait the sequencer has neither a buffer nor a route. -/
def Clears : Prop := cmds.foldl SequencerCmd.effect (r.pending,r.routed.isSome) = (false,false)

/-- The sequencer does not route, and stopped where a replay resumes. -/
structure Asleep (resume : LogPosition) : Prop where
  aborts : ∀ c ∈ cmds, c = .abortShape
  clears : r.Clears cmds
  routed : r.routed = none
  stopped : r.stopped = some resume

/-- The sequencer routes, as long as it is there. -/
def Awake : Prop := gone = false → cmds = [] ∧ r.pending = false ∧ r.routed.isSome = true

/-- What a parking relies on. -/
def Parking (n : ℕ) : Stage → Prop
  | .deactivating => r.Awake gone cmds
  | .deactivateSent => gone = false → cmds = [.deactivateShape n] ∧ r.pending = false ∧ r.routed.isSome = true
  | .deactivated (some parked) => r.Asleep cmds parked.resume
  | .deactivated none => gone = true
  | _ => False

/-- What a wake relies on. -/
def Waking (n : ℕ) (resume : LogPosition) : Stage → Prop
  | .admitting parked | .resuming parked | .lookedUp parked _ | .settling parked (.error _) =>
    parked.resume = resume ∧ r.Asleep cmds resume
  | .beginSent parked _ => parked.resume = resume ∧ r.routed = none ∧ r.stopped = some resume ∧
      (gone = false → ∃ aborts, cmds = aborts ++ [.beginShape n] ∧ ∀ c ∈ aborts, c = .abortShape)
  | .replaying parked _ | .replayed parked _ =>
    parked.resume = resume ∧ r.routed = none ∧ r.stopped = some resume ∧ cmds = []
  | .activateSent parked _ => parked.resume = resume ∧ r.routed = none ∧ r.stopped = some resume ∧
      (gone = false → cmds = [.activateShape n parked.gate])
  | .activated _ _ | .settling _ (.ok _) => r.Awake gone cmds
  | _ => False

variable {gone cmds r} {n : ℕ} {st : Stage}

lemma Parking.inTransition (h : r.Parking gone cmds n st) : st.inTransition = true := by
  cases st <;> first | rfl | cases h

lemma Waking.inTransition {resume : LogPosition} (h : r.Waking gone cmds n resume st) : st.inTransition = true := by
  cases st <;> first | rfl | cases h

lemma foldl_effect_mono (cmds : List SequencerCmd) {r r' : Bool × Bool} (h : r ≤ r') :
    cmds.foldl SequencerCmd.effect r ≤ cmds.foldl SequencerCmd.effect r' := by
  induction cmds generalizing r r' with
  | nil => exact h
  | cons c cmds ih =>
    refine ih ?_
    obtain ⟨hpending,hrouted⟩ := h
    cases c with
    | beginShape k => exact ⟨le_refl _,hrouted⟩
    | activateShape k gate => exact ⟨le_refl _,sup_le_sup hrouted hpending⟩
    | abortShape => exact ⟨le_refl _,hrouted⟩
    | deactivateShape k => exact ⟨hpending,le_refl _⟩
    | removeShape => exact ⟨le_refl _,le_refl _⟩

/-- Less than what clears is clear. -/
lemma Clears.of_le {r' : Routing} {c : SequencerCmd} (h : r.Clears (c :: cmds))
    (hle : (r'.pending,r'.routed.isSome) ≤ c.effect (r.pending,r.routed.isSome)) : r'.Clears cmds := by
  have hbelow := foldl_effect_mono cmds hle
  rw [Clears,List.foldl_cons] at h
  change cmds.foldl SequencerCmd.effect (SequencerCmd.effect _ c) = _ at h
  rw [h] at hbelow
  exact le_antisymm hbelow ⟨Bool.false_le _,Bool.false_le _⟩

/-- Only a `BeginShape` makes something of nothing. -/
lemma Clears.append {more : List SequencerCmd} (h : r.Clears cmds) (hmore : ∀ k, .beginShape k ∉ more) :
    r.Clears (cmds ++ more) := by
  rw [Clears,List.foldl_append,h]
  induction more with
  | nil => rfl
  | cons c more ih =>
    have hc : SequencerCmd.effect (false,false) c = (false,false) := by
      cases c with
      | beginShape k => exact absurd List.mem_cons_self (hmore k)
      | _ => rfl
    rw [List.foldl_cons,hc]
    exact ih fun k hk => hmore k (List.mem_cons_of_mem _ hk)

lemma clears_remove (cmds : List SequencerCmd) (r : Routing) : r.Clears (cmds ++ [.removeShape]) := by
  rw [Clears,List.foldl_append]
  rfl

end Routing

namespace Shape
variable (gone : Bool) (cmds : List SequencerCmd) (sh : Shape)

def Resting : Prop := ∀ n st, sh.attempts n = some st → st.inTransition = false

/-- What the life of a shape says of its attempts and of the sequencer. -/
def Tidy : Prop :=
  match sh.life with
  | none => sh.routing.Clears cmds ∧ ∀ n parked g, sh.attempts n ≠ some (.lookedUp parked g)
  | some .active => sh.Resting ∧ sh.routing.Awake gone cmds
  | some (.dormant parked) => sh.Resting ∧ sh.routing.Asleep cmds parked.resume
  | some (.deactivating n) => ∃ st, sh.attempts n = some st ∧ sh.routing.Parking gone cmds n st
  | some (.reactivating n resume) => ∃ st, sh.attempts n = some st ∧ sh.routing.Waking gone cmds n resume st

def Single : Prop := ∀ n m st st', sh.attempts n = some st → sh.attempts m = some st' →
  st.inTransition = true → st'.inTransition = true → n = m

/-- The invariant of a shape and of the commands about it. -/
structure Inv : Prop where
  single : sh.Single
  registered : sh.registered = sh.life.isSome
  unborn : sh.born = false → sh.life = none ∧ cmds = [] ∧ ∀ n, sh.attempts n = none
  dead : gone = true → cmds = [] ∧ sh.routing.pending = false ∧ sh.routing.routed = none
  tidy : sh.Tidy gone cmds

variable {gone cmds sh} {n m : ℕ} {st : Stage}

@[simp] lemma setStage_self (sh : Shape) (n : ℕ) (st : Option Stage) : (sh.setStage n st).attempts n = st := by
  simp [setStage]

lemma setStage_of_ne (h : m ≠ n) (sh : Shape) (st : Option Stage) :
    (sh.setStage n st).attempts m = sh.attempts m := by
  simp [setStage,h]

/-- An attempt in transition is the one that the life names, or its shape is retired. -/
lemma Inv.of_attempt (h : sh.Inv gone cmds) (hn : sh.attempts n = some st) (hst : st.inTransition = true) :
    (sh.life = none ∧ sh.routing.Clears cmds ∧ ∀ m parked g, sh.attempts m ≠ some (.lookedUp parked g)) ∨
    (sh.life = some (.deactivating n) ∧ sh.routing.Parking gone cmds n st) ∨
    ∃ resume, sh.life = some (.reactivating n resume) ∧ sh.routing.Waking gone cmds n resume st := by
  have htidy := h.tidy
  have hname : ∀ m st', sh.attempts m = some st' → st'.inTransition = true → m = n ∧ st' = st := by
    intro m st' hm hst'
    have hmn := h.single m n st' st hm hn hst' hst
    rw [hmn,hn] at hm
    exact ⟨hmn,(Option.some.inj hm).symm⟩
  unfold Tidy at htidy
  split at htidy
  case h_1 hlife => exact .inl ⟨hlife,htidy⟩
  case h_2 hlife => exact absurd (htidy.1 n st hn) (by rw [hst]; decide)
  case h_3 hlife => exact absurd (htidy.1 n st hn) (by rw [hst]; decide)
  case h_4 m hlife =>
    obtain ⟨st',hm,hpark⟩ := htidy
    obtain ⟨rfl,rfl⟩ := hname m st' hm hpark.inTransition
    exact .inr (.inl ⟨hlife,hpark⟩)
  case h_5 m resume hlife =>
    obtain ⟨st',hm,hwake⟩ := htidy
    obtain ⟨rfl,rfl⟩ := hname m st' hm hwake.inTransition
    exact .inr (.inr ⟨resume,hlife,hwake⟩)

/-- Attempts that are no other than before, but for one, are single. -/
lemma Single.setStage (h : sh.Single) (hn : sh.attempts n = some st) (hst : st.inTransition = true)
    (st' : Option Stage) : (sh.setStage n st').Single := by
  have hold : ∀ m st₀, (sh.setStage n st').attempts m = some st₀ → st₀.inTransition = true →
      ∃ st₁, sh.attempts m = some st₁ ∧ st₁.inTransition = true := by
    intro m st₀ hm hst₀
    by_cases hmn : m = n
    · subst hmn
      exact ⟨st,hn,hst⟩
    · rw [setStage_of_ne hmn] at hm
      exact ⟨st₀,hm,hst₀⟩
  intro m k st₀ st₁ hm hk hst₀ hst₁
  obtain ⟨st₂,hm',hst₂⟩ := hold m st₀ hm hst₀
  obtain ⟨st₃,hk',hst₃⟩ := hold k st₁ hk hst₁
  exact h m k st₂ st₃ hm' hk' hst₂ hst₃

/-- Without the one that was in transition all are at rest. -/
lemma Inv.resting (h : sh.Inv gone cmds) (hn : sh.attempts n = some st) (hst : st.inTransition = true)
    {st' : Option Stage} (hst' : ∀ st₀, st' = some st₀ → st₀.inTransition = false) :
    (sh.setStage n st').Resting := by
  intro m st₀ hm
  by_cases hmn : m = n
  · subst hmn
    rw [setStage_self] at hm
    exact hst' st₀ hm
  · rw [setStage_of_ne hmn] at hm
    cases htrans : st₀.inTransition with
    | false => rfl
    | true => exact absurd (h.single m n st₀ st hm hn htrans hst) hmn

lemma Inv.born (h : sh.Inv gone cmds) (hn : sh.attempts n = some st) : sh.born = true := by
  cases hborn : sh.born with
  | true => rfl
  | false =>
    rw [(h.unborn hborn).2.2 n] at hn
    cases hn

/-- An attempt goes on, and sends commands that the sequencer gets if it is there. -/
lemma Inv.move (h : sh.Inv gone cmds) (hn : sh.attempts n = some st) (hst : st.inTransition = true)
    {st' : Stage} {more : List SequencerCmd}
    (hnone : sh.life = none → (∀ m parked g, sh.attempts m ≠ some (.lookedUp parked g)) →
      (∀ k, .beginShape k ∉ more) ∧ ∀ parked g, st' ≠ .lookedUp parked g)
    (hpark : sh.routing.Parking gone cmds n st → sh.routing.Parking gone (cmds ++ if gone then [] else more) n st')
    (hwake : ∀ resume, sh.life = some (.reactivating n resume) → sh.routing.Waking gone cmds n resume st →
      sh.routing.Waking gone (cmds ++ if gone then [] else more) n resume st') :
    (sh.setStage n (some st')).Inv gone (cmds ++ if gone then [] else more) := by
  have hself : (sh.setStage n (some st')).attempts n = some st' := sh.setStage_self n _
  refine ⟨h.single.setStage hn hst _,h.registered,fun hborn => ?_,fun hgone => ?_,?_⟩
  · exact absurd ((h.born hn).symm.trans hborn) (by decide)
  · rw [hgone,if_pos rfl,List.append_nil]
    exact h.dead hgone
  · obtain ⟨hlife,hclears,hlook⟩ | ⟨hlife,hparking⟩ | ⟨resume,hlife,hwaking⟩ := h.of_attempt hn hst
    · obtain ⟨hmore,hst'⟩ := hnone hlife hlook
      have hclears' : sh.routing.Clears (cmds ++ if gone then [] else more) := hclears.append fun k hk => by
        split at hk
        · cases hk
        · exact hmore k hk
      have hlife' : (sh.setStage n (some st')).life = none := hlife
      rw [Tidy,hlife']
      refine ⟨hclears',fun m parked g hm => ?_⟩
      by_cases hmn : m = n
      · subst hmn
        rw [hself] at hm
        exact hst' parked g (Option.some.inj hm)
      · rw [setStage_of_ne hmn] at hm
        exact hlook m parked g hm
    · have hlife' : (sh.setStage n (some st')).life = some (.deactivating n) := hlife
      rw [Tidy,hlife']
      exact ⟨st',hself,hpark hparking⟩
    · have hlife' : (sh.setStage n (some st')).life = some (.reactivating n resume) := hlife
      rw [Tidy,hlife']
      exact ⟨st',hself,hwake resume hlife hwaking⟩

/-- An attempt ends, and its shape is active or dormant. -/
lemma Inv.finish (h : sh.Inv gone cmds) (hn : sh.attempts n = some st) (hst : st.inTransition = true)
    {st' : Option Stage} (hst' : ∀ st₀, st' = some st₀ → st₀.inTransition = false) {life : Life}
    (hlife : sh.routing.Parking gone cmds n st ∨ (∃ resume, sh.routing.Waking gone cmds n resume st) →
      (life = .active ∧ sh.routing.Awake gone cmds) ∨
        ∃ parked, life = .dormant parked ∧ sh.routing.Asleep cmds parked.resume) :
    ((sh.setStage n st').setLife life).Inv gone cmds := by
  have hresting := h.resting hn hst hst'
  refine ⟨fun m k st₀ st₁ hm hk hst₀ _ => ?_,?_,fun hborn => ?_,h.dead,?_⟩
  · rw [hresting m st₀ hm] at hst₀
    cases hst₀
  · rw [setLife,Option.isSome_map]
    exact h.registered
  · exact absurd ((h.born hn).symm.trans hborn) (by decide)
  · have hsome : ∀ old, sh.life = some old →
        (sh.routing.Parking gone cmds n st ∨ ∃ resume, sh.routing.Waking gone cmds n resume st) →
        ((sh.setStage n st').setLife life).Tidy gone cmds := by
      intro old hold hrelies
      have hlife' : ((sh.setStage n st').setLife life).life = some life := by
        rw [setLife,setStage,hold]
        rfl
      obtain ⟨rfl,hawake⟩ | ⟨parked,rfl,hasleep⟩ := hlife hrelies
      · rw [Tidy,hlife']
        exact ⟨hresting,hawake⟩
      · rw [Tidy,hlife']
        exact ⟨hresting,hasleep⟩
    obtain ⟨hnone,hclears,hlook⟩ | ⟨hold,hparking⟩ | ⟨resume,hold,hwaking⟩ := h.of_attempt hn hst
    · have hlife' : ((sh.setStage n st').setLife life).life = none := by
        rw [setLife,setStage,hnone]
        rfl
      rw [Tidy,hlife']
      refine ⟨hclears,fun m parked g hm => ?_⟩
      cases hresting m _ hm
    · exact hsome _ hold (.inl hparking)
    · exact hsome _ hold (.inr ⟨resume,hwaking⟩)

/-- A transition begins where none is under way. -/
lemma Inv.start (h : sh.Inv gone cmds) (hresting : sh.Resting) (hfree : sh.attempts n = none) {old life : Life}
    (hold : sh.life = some old)
    (hst : (∃ k, life = .deactivating k ∧ k = n ∧ sh.routing.Parking gone cmds n st) ∨
      ∃ resume, life = .reactivating n resume ∧ sh.routing.Waking gone cmds n resume st) :
    (sh.start n life st).Inv gone cmds := by
  have hself : (sh.start n life st).attempts n = some st := sh.setStage_self n _
  have hothers : ∀ m st₀, m ≠ n → (sh.start n life st).attempts m = some st₀ → st₀.inTransition = false := by
    intro m st₀ hmn hm
    have hm' : (sh.setStage n (some st)).attempts m = some st₀ := hm
    rw [setStage_of_ne hmn] at hm'
    exact hresting m st₀ hm'
  refine ⟨fun m k st₀ st₁ hm hk hst₀ hst₁ => ?_,?_,fun hborn => ?_,h.dead,?_⟩
  · have hmn : m = n := by
      by_contra hmn
      rw [hothers m st₀ hmn hm] at hst₀
      cases hst₀
    have hkn : k = n := by
      by_contra hkn
      rw [hothers k st₁ hkn hk] at hst₁
      cases hst₁
    rw [hmn,hkn]
  · have hreg := h.registered
    rw [hold] at hreg
    exact hreg
  · have hnone := (h.unborn hborn).1
    rw [hold] at hnone
    cases hnone
  · obtain ⟨k,rfl,rfl,hparking⟩ | ⟨resume,rfl,hwaking⟩ := hst
    · exact ⟨st,hself,hparking⟩
    · exact ⟨st,hself,hwaking⟩

/-- A shape is retired that the sequencer has forgotten, or will. -/
lemma Inv.retire (h : sh.Inv gone cmds) {more : List SequencerCmd} (hreg : sh.registered = true)
    (hlook : ∀ m parked g, sh.attempts m ≠ some (.lookedUp parked g))
    (hclears : sh.routing.Clears (cmds ++ if gone then [] else more)) :
    sh.retired.Inv gone (cmds ++ if gone then [] else more) := by
  refine ⟨h.single,rfl,fun hborn => ?_,fun hgone => ?_,⟨hclears,hlook⟩⟩
  · have hlife := h.registered
    rw [(h.unborn hborn).1,hreg] at hlife
    cases hlife
  · rw [hgone,if_pos rfl,List.append_nil]
    exact h.dead hgone

section handle
variable {c : SequencerCmd} {pos : LogPosition} {misses : Bool}

/-- An answer leaves an attempt where it was, in transition or not, and no attempt that has looked up. -/
structure Answers (f : Stage → Stage) : Prop where
  inTransition : ∀ st, (f st).inTransition = st.inTransition
  lookedUp : ∀ st parked g, f st = .lookedUp parked g → st = .lookedUp parked g

lemma answers_id : Answers id := ⟨fun _ => rfl,fun _ _ _ h => h⟩

lemma answers_begun : Answers .begun := by
  constructor
  · intro st
    cases st <;> rfl
  · intro st parked g h
    cases st <;> first | exact h | cases h

lemma answers_ready (answer : Except Failure Unit) : Answers (.ready answer) := by
  constructor
  · intro st
    cases st <;> cases answer <;> rfl
  · intro st parked g h
    cases st <;> cases answer <;> first | exact h | cases h

lemma answers_handedBack (resume : Option Parked) : Answers (.handedBack resume) := by
  constructor
  · intro st
    cases st <;> rfl
  · intro st parked g h
    cases st <;> first | exact h | cases h

lemma attempts_answer {f : Stage → Stage} (hf : Answers f) (sh : Shape) (n m : ℕ) :
    ∃ g, Answers g ∧ (sh.answer n f).attempts m = (sh.attempts m).map g := by
  by_cases hmn : m = n
  · subst hmn
    exact ⟨f,hf,sh.setStage_self m _⟩
  · refine ⟨id,answers_id,?_⟩
    rw [answer,setStage_of_ne hmn,Option.map_id]
    rfl

/-- What the sequencer does to a shape: its attempts get answers, and its record and its life stay. -/
lemma handle_spec (sh : Shape) (pos : LogPosition) (misses : Bool) (c : SequencerCmd) :
    (sh.handle pos misses c).life = sh.life ∧ (sh.handle pos misses c).registered = sh.registered ∧
    (sh.handle pos misses c).born = sh.born ∧
    (∀ m, ∃ g, Answers g ∧ (sh.handle pos misses c).attempts m = (sh.attempts m).map g) ∧
    ((sh.handle pos misses c).routing.pending,(sh.handle pos misses c).routing.routed.isSome) ≤
      c.effect (sh.routing.pending,sh.routing.routed.isSome) := by
  have hsame : ∀ m, ∃ g, Answers g ∧ sh.attempts m = (sh.attempts m).map g := fun m =>
    ⟨id,answers_id,by rw [Option.map_id]; rfl⟩
  cases c with
  | beginShape n => exact ⟨rfl,rfl,rfl,attempts_answer answers_begun _ n,Bool.le_true _,le_refl _⟩
  | activateShape n gate =>
    unfold handle
    split_ifs with hpending hmisses
    · refine ⟨rfl,rfl,rfl,attempts_answer (answers_ready _) _ n,?_,le_sup_left⟩
      exact le_of_eq hpending
    · exact ⟨rfl,rfl,rfl,attempts_answer (answers_ready _) _ n,le_refl _,le_sup_left⟩
    · refine ⟨rfl,rfl,rfl,attempts_answer (answers_ready _) _ n,le_refl _,?_⟩
      rw [Bool.not_eq_false] at hpending
      simp [SequencerCmd.effect,hpending]
  | abortShape => exact ⟨rfl,rfl,rfl,hsame,le_refl _,le_refl _⟩
  | deactivateShape n => exact ⟨rfl,rfl,rfl,attempts_answer (answers_handedBack _) _ n,le_refl _,le_refl _⟩
  | removeShape => exact ⟨rfl,rfl,rfl,hsame,le_refl _,le_refl _⟩

/-- An `AbortShape` finds a sleeping shape asleep and leaves it so. -/
lemma Asleep.handle (pos : LogPosition) (misses : Bool) {resume : LogPosition}
    (h : sh.routing.Asleep (c :: cmds) resume) :
    c = .abortShape ∧ (sh.handle pos misses c).routing.Asleep cmds resume ∧
      ∀ m, (sh.handle pos misses c).attempts m = sh.attempts m := by
  obtain rfl : c = .abortShape := h.aborts c List.mem_cons_self
  refine ⟨rfl,⟨fun c' hc' => h.aborts c' (List.mem_cons_of_mem _ hc'),?_,h.routed,h.stopped⟩,fun _ => rfl⟩
  exact h.clears.of_le (handle_spec sh pos misses .abortShape).2.2.2.2

/-- The answer to the command that an attempt waits for. -/
lemma answer_self (sh : Shape) {f : Stage → Stage} (hn : sh.attempts n = some st) :
    (sh.answer n f).attempts n = some (f st) := by
  rw [answer,setStage_self,hn]
  rfl

/-- A parking after a command that it waits for. -/
lemma Parking.handle (hn : sh.attempts n = some st) (h : sh.routing.Parking false (c :: cmds) n st) :
    ∃ st', (sh.handle pos misses c).attempts n = some st' ∧
      (sh.handle pos misses c).routing.Parking false cmds n st' := by
  cases st with
  | deactivating => cases (h rfl).1
  | deactivateSent =>
    obtain ⟨hcmds,hpending,hrouted⟩ := h rfl
    obtain ⟨rfl,rfl⟩ := List.cons.inj hcmds
    obtain ⟨gate,hgate⟩ := Option.isSome_iff_exists.mp hrouted
    refine ⟨.deactivated (some ⟨pos,gate⟩),?_,?_⟩
    · exact (answer_self _ hn).trans (by rw [hgate]; rfl)
    · refine ⟨fun _ hc => absurd hc List.not_mem_nil,?_,rfl,?_⟩
      · exact Prod.ext hpending rfl
      · exact if_pos hrouted
  | deactivated resume =>
    cases resume with
    | none => cases h
    | some parked =>
      obtain ⟨-,hasleep,hattempts⟩ := Asleep.handle pos misses h
      exact ⟨_,(hattempts n).trans hn,hasleep⟩
  | _ => cases h

/-- A wake after a command that it waits for. -/
lemma Waking.handle {resume : LogPosition} (hn : sh.attempts n = some st)
    (h : sh.routing.Waking false (c :: cmds) n resume st) :
    ∃ st', (sh.handle pos misses c).attempts n = some st' ∧
      (sh.handle pos misses c).routing.Waking false cmds n resume st' := by
  have hasleep : sh.routing.Asleep (c :: cmds) resume → ∀ parked : Parked, parked.resume = resume →
      (∀ r' : Routing, r'.Asleep cmds resume → r'.Waking false cmds n resume st) →
      ∃ st', (sh.handle pos misses c).attempts n = some st' ∧
        (sh.handle pos misses c).routing.Waking false cmds n resume st' := by
    intro hold parked hresume hwaking
    obtain ⟨-,hnew,hattempts⟩ := Asleep.handle pos misses hold
    exact ⟨st,(hattempts n).trans hn,hwaking _ hnew⟩
  cases st with
  | admitting parked => exact hasleep h.2 parked h.1 fun _ hnew => ⟨h.1,hnew⟩
  | resuming parked => exact hasleep h.2 parked h.1 fun _ hnew => ⟨h.1,hnew⟩
  | lookedUp parked g => exact hasleep h.2 parked h.1 fun _ hnew => ⟨h.1,hnew⟩
  | beginSent parked g =>
    obtain ⟨hresume,hrouted,hstopped,hcmds⟩ := h
    obtain ⟨aborts,hcmds,haborts⟩ := hcmds rfl
    cases aborts with
    | nil =>
      obtain ⟨rfl,rfl⟩ := List.cons.inj hcmds
      exact ⟨_,answer_self _ hn,hresume,hrouted,hstopped,rfl⟩
    | cons c' aborts =>
      obtain ⟨rfl,rfl⟩ := List.cons.inj hcmds
      obtain rfl := haborts c List.mem_cons_self
      refine ⟨_,hn,hresume,hrouted,hstopped,fun _ => ⟨aborts,rfl,fun c hc => ?_⟩⟩
      exact haborts c (List.mem_cons_of_mem _ hc)
  | replaying parked g => cases h.2.2.2
  | replayed parked g => cases h.2.2.2
  | activateSent parked g =>
    obtain ⟨hresume,hrouted,hstopped,hcmds⟩ := h
    obtain ⟨rfl,rfl⟩ := List.cons.inj (hcmds rfl)
    have hclear : ∀ r : Routing, r.pending = false → r.routed = none → r.stopped = some resume →
        r.Asleep [] resume := by
      intro r hpending hrouted hstopped
      refine ⟨fun _ hc => absurd hc List.not_mem_nil,?_,hrouted,hstopped⟩
      rw [Routing.Clears,List.foldl_nil,hpending,hrouted]
      rfl
    unfold handle
    split_ifs with hpending hmisses
    · exact ⟨_,answer_self _ hn,hresume,hclear _ hpending hrouted hstopped⟩
    · exact ⟨_,answer_self _ hn,hresume,hclear _ rfl hrouted hstopped⟩
    · exact ⟨_,answer_self _ hn,fun _ => ⟨rfl,rfl,rfl⟩⟩
  | activated parked g => cases (h rfl).1
  | settling parked outcome =>
    cases outcome with
    | ok _ => cases (h rfl).1
    | error e => exact hasleep h.2 parked h.1 fun _ hnew => ⟨h.1,hnew⟩
  | _ => cases h

lemma Inv.handle (h : sh.Inv false (c :: cmds)) : (sh.handle pos misses c).Inv false cmds := by
  obtain ⟨hlife,hreg,hborn,hattempts,hle⟩ := handle_spec sh pos misses c
  have hold : ∀ m st', (sh.handle pos misses c).attempts m = some st' →
      ∃ g st, Answers g ∧ sh.attempts m = some st ∧ st' = g st := by
    intro m st' hm
    obtain ⟨g,hg,hmap⟩ := hattempts m
    obtain ⟨st,hst,hst'⟩ := Option.map_eq_some_iff.mp (hmap.symm.trans hm)
    exact ⟨g,st,hg,hst,hst'.symm⟩
  have hresting : sh.Resting → (sh.handle pos misses c).Resting := by
    intro hrest m st' hm
    obtain ⟨g,st,hg,hst,rfl⟩ := hold m st' hm
    rw [hg.inTransition]
    exact hrest m st hst
  refine ⟨fun m k st₀ st₁ hm hk hst₀ hst₁ => ?_,?_,fun hunborn => ?_,fun hgone => ?_,?_⟩
  · obtain ⟨g,st,hg,hst,rfl⟩ := hold m st₀ hm
    obtain ⟨g',st',hg',hst',rfl⟩ := hold k st₁ hk
    rw [hg.inTransition] at hst₀
    rw [hg'.inTransition] at hst₁
    exact h.single m k st st' hst hst' hst₀ hst₁
  · rw [hreg,hlife]
    exact h.registered
  · cases (h.unborn (hborn.symm.trans hunborn)).2.1
  · cases hgone
  · have htidy := h.tidy
    unfold Tidy at htidy ⊢
    rw [hlife]
    cases hl : sh.life with
    | none =>
      rw [hl] at htidy
      refine ⟨htidy.1.of_le hle,fun m parked g hm => ?_⟩
      obtain ⟨f,st,hf,hst,heq⟩ := hold m _ hm
      rw [hf.lookedUp st parked g heq.symm] at hst
      exact htidy.2 m parked g hst
    | some life =>
      rw [hl] at htidy
      cases life with
      | active => cases (htidy.2 rfl).1
      | dormant parked => exact ⟨hresting htidy.1,(Asleep.handle pos misses htidy.2).2.1⟩
      | deactivating n =>
        obtain ⟨st,hn,hparking⟩ := htidy
        exact Parking.handle hn hparking
      | reactivating n resume =>
        obtain ⟨st,hn,hwaking⟩ := htidy
        exact Waking.handle hn hwaking

end handle

/-- Without a sequencer nothing waits and nothing is routed. -/
lemma Asleep.halt {pos : LogPosition} {resume : LogPosition} (h : sh.routing.Asleep cmds resume) :
    (sh.halt pos).routing.Asleep [] resume := by
  refine ⟨fun _ hc => absurd hc List.not_mem_nil,rfl,rfl,?_⟩
  rw [Shape.halt,Routing.stop]
  simp [h.routed,h.stopped]

lemma Inv.halt (h : sh.Inv false cmds) (pos : LogPosition) : (sh.halt pos).Inv true [] := by
  refine ⟨h.single,h.registered,fun hborn => ?_,fun _ => ⟨rfl,rfl,rfl⟩,?_⟩
  · obtain ⟨hlife,-,hattempts⟩ := h.unborn hborn
    exact ⟨hlife,rfl,hattempts⟩
  · have htidy := h.tidy
    have hlife : (sh.halt pos).life = sh.life := rfl
    have hstopped : ∀ resume, sh.routing.routed = none → sh.routing.stopped = some resume →
        (sh.halt pos).routing.stopped = some resume := by
      intro resume hrouted hstopped
      simp [Shape.halt,Routing.stop,hrouted,hstopped]
    unfold Tidy at htidy ⊢
    rw [hlife]
    cases hl : sh.life with
    | none =>
      rw [hl] at htidy
      exact ⟨rfl,htidy.2⟩
    | some life =>
      rw [hl] at htidy
      cases life with
      | active => exact ⟨htidy.1,fun hgone => by cases hgone⟩
      | dormant parked => exact ⟨htidy.1,Asleep.halt htidy.2⟩
      | deactivating n =>
        obtain ⟨st,hn,hparking⟩ := htidy
        refine ⟨st,hn,?_⟩
        cases st with
        | deactivating => exact fun hgone => by cases hgone
        | deactivateSent => exact fun hgone => by cases hgone
        | deactivated resume =>
          cases resume with
          | none => rfl
          | some parked => exact Asleep.halt hparking
        | _ => cases hparking
      | reactivating n resume =>
        obtain ⟨st,hn,hwaking⟩ := htidy
        refine ⟨st,hn,?_⟩
        cases st with
        | admitting parked => exact ⟨hwaking.1,Asleep.halt hwaking.2⟩
        | resuming parked => exact ⟨hwaking.1,Asleep.halt hwaking.2⟩
        | lookedUp parked g => exact ⟨hwaking.1,Asleep.halt hwaking.2⟩
        | beginSent parked g =>
          obtain ⟨hresume,hrouted,hstop,-⟩ := hwaking
          exact ⟨hresume,rfl,hstopped _ hrouted hstop,fun hgone => by cases hgone⟩
        | replaying parked g =>
          obtain ⟨hresume,hrouted,hstop,-⟩ := hwaking
          exact ⟨hresume,rfl,hstopped _ hrouted hstop,rfl⟩
        | replayed parked g =>
          obtain ⟨hresume,hrouted,hstop,-⟩ := hwaking
          exact ⟨hresume,rfl,hstopped _ hrouted hstop,rfl⟩
        | activateSent parked g =>
          obtain ⟨hresume,hrouted,hstop,-⟩ := hwaking
          exact ⟨hresume,rfl,hstopped _ hrouted hstop,fun hgone => by cases hgone⟩
        | activated parked g => exact fun hgone => by cases hgone
        | settling parked outcome =>
          cases outcome with
          | ok _ => exact fun hgone => by cases hgone
          | error e => exact ⟨hwaking.1,Asleep.halt hwaking.2⟩
        | _ => cases hwaking

/-- The attempt that evicts is gone. -/
lemma Inv.drop (h : sh.Inv gone cmds) (hn : sh.attempts n = some st) (hst : st.inTransition = false) :
    (sh.setStage n none).Inv gone cmds := by
  have hold : ∀ m st₀, (sh.setStage n none).attempts m = some st₀ → sh.attempts m = some st₀ := by
    intro m st₀ hm
    have hmn : m ≠ n := by
      rintro rfl
      rw [setStage_self] at hm
      cases hm
    rwa [setStage_of_ne hmn] at hm
  have hkept : ∀ m st₀, sh.attempts m = some st₀ → st₀.inTransition = true →
      (sh.setStage n none).attempts m = some st₀ := by
    intro m st₀ hm hst₀
    have hmn : m ≠ n := by
      rintro rfl
      obtain rfl : st = st₀ := Option.some.inj (hn.symm.trans hm)
      rw [hst] at hst₀
      cases hst₀
    rwa [setStage_of_ne hmn]
  refine ⟨fun m k st₀ st₁ hm hk => h.single m k st₀ st₁ (hold m st₀ hm) (hold k st₁ hk),h.registered,fun hborn => ?_,
    h.dead,?_⟩
  · rw [(h.unborn hborn).2.2 n] at hn
    cases hn
  · have htidy := h.tidy
    have hlife : (sh.setStage n none).life = sh.life := rfl
    unfold Tidy at htidy ⊢
    rw [hlife]
    cases hl : sh.life with
    | none =>
      rw [hl] at htidy
      exact ⟨htidy.1,fun m parked g hm => htidy.2 m parked g (hold m _ hm)⟩
    | some life =>
      rw [hl] at htidy
      cases life with
      | active => exact ⟨fun m st₀ hm => htidy.1 m st₀ (hold m st₀ hm),htidy.2⟩
      | dormant parked => exact ⟨fun m st₀ hm => htidy.1 m st₀ (hold m st₀ hm),htidy.2⟩
      | deactivating k =>
        obtain ⟨st₀,hk,hparking⟩ := htidy
        exact ⟨st₀,hkept k st₀ hk hparking.inTransition,hparking⟩
      | reactivating k resume =>
        obtain ⟨st₀,hk,hwaking⟩ := htidy
        exact ⟨st₀,hkept k st₀ hk hwaking.inTransition,hwaking⟩

/-- A `RemoveShape` clears, and so did the end of the sequencer. -/
lemma Inv.removed (h : sh.Inv gone cmds) :
    sh.routing.Clears (cmds ++ if gone then [] else [.removeShape]) := by
  cases hgone : gone with
  | false => exact Routing.clears_remove cmds sh.routing
  | true =>
    obtain ⟨rfl,hpending,hrouted⟩ := h.dead hgone
    rw [Routing.Clears,hpending,hrouted]
    rfl

lemma Resting.not_lookedUp (h : sh.Resting) (m : ℕ) (parked : Parked) (g : ℕ) :
    sh.attempts m ≠ some (.lookedUp parked g) := by
  intro hm
  cases h m _ hm

/-- What an eviction does: nothing, or it retires a dormant shape or an active one that cannot be parked. -/
lemma evictShape_spec (sh : Shape) (reason : EvictReason) (idle : Bool) :
    sh.evictShape reason idle = (sh,[]) ∨
    (sh.registered = true ∧ ((∃ parked, sh.life = some (.dormant parked)) ∨
        sh.life = some .active ∧ sh.parkable = false) ∧
      sh.evictShape reason idle = (sh.retired,if sh.parkable then [] else [.removeShape])) := by
  unfold evictShape
  by_cases hskip : (!sh.registered || !sh.evictable idle || (!sh.provisional reason && 0 < sh.claims)) = true
  · exact .inl (if_pos hskip)
  · obtain ⟨hreg,hevictable⟩ : sh.registered = true ∧ sh.evictable idle = true := by
      cases hr : sh.registered <;> cases he : sh.evictable idle <;> simp [hr,he] at hskip ⊢
    refine .inr ⟨hreg,?_,if_neg hskip⟩
    unfold evictable at hevictable
    cases hl : sh.life with
    | none => simp [hl] at hevictable
    | some life =>
      cases life with
      | active =>
        refine .inr ⟨rfl,?_⟩
        cases hpark : sh.parkable with
        | false => rfl
        | true => simp [hl,hpark] at hevictable
      | dormant parked => exact .inl ⟨parked,rfl⟩
      | deactivating k => simp [hl] at hevictable
      | reactivating k resume => simp [hl] at hevictable

lemma Inv.evict (h : sh.Inv gone cmds) (reason : EvictReason) (idle : Bool) :
    (sh.evictShape reason idle).1.Inv gone (cmds ++ if gone then [] else (sh.evictShape reason idle).2) := by
  obtain hsame | ⟨hreg,hlife,hretired⟩ := sh.evictShape_spec reason idle
  · rw [hsame,ite_self,List.append_nil]
    exact h
  · rw [hretired]
    have htidy := h.tidy
    unfold Tidy at htidy
    obtain ⟨parked,hl⟩ | ⟨hl,hpark⟩ := hlife
    · rw [hl] at htidy
      refine h.retire hreg htidy.1.not_lookedUp ?_
      cases hpark : sh.parkable with
      | false => exact h.removed
      | true =>
        rw [if_pos rfl,ite_self,List.append_nil]
        exact htidy.2.clears
    · rw [hl] at htidy
      refine h.retire hreg htidy.1.not_lookedUp ?_
      rw [hpark]
      exact h.removed

lemma Inv.purge (h : sh.Inv gone cmds) (hlook : ∀ m parked g, sh.attempts m ≠ some (.lookedUp parked g)) :
    sh.purgeShape.1.Inv gone (cmds ++ if gone then [] else sh.purgeShape.2) := by
  unfold purgeShape
  cases hreg : sh.registered with
  | true => exact h.retire hreg hlook h.removed
  | false =>
    have hlife : sh.life = none := by
      have hsome := h.registered
      rw [hreg] at hsome
      exact Option.isNone_iff_eq_none.mp (by rw [← Option.not_isSome,← hsome]; rfl)
    have htidy := h.tidy
    rw [Tidy,hlife] at htidy
    have hnil : (cmds ++ if gone then [] else if false = true then [SequencerCmd.removeShape] else []) = cmds := by simp
    rw [hnil]
    exact ⟨h.single,rfl,fun hborn => ⟨rfl,(h.unborn hborn).2⟩,h.dead,htidy⟩

/-- A step without commands. -/
lemma Inv.quietly {sh' : Shape} (h : sh'.Inv gone cmds) : sh'.Inv gone (cmds ++ if gone then [] else []) := by
  rwa [ite_self,List.append_nil]

/-- Asleep without a sequencer, where nothing waits and nothing is routed. -/
lemma Inv.asleep (h : sh.Inv gone cmds) (hgone : gone = true) {resume : LogPosition}
    (hstopped : sh.routing.stopped = some resume) : sh.routing.Asleep cmds resume := by
  obtain ⟨rfl,hpending,hrouted⟩ := h.dead hgone
  refine ⟨fun _ hc => absurd hc List.not_mem_nil,?_,hrouted,hstopped⟩
  rw [Routing.Clears,hpending,hrouted]
  rfl

section step
variable {gens : ℕ} {a : ShapeAct} {sh' : Shape} {more : List SequencerCmd}

/-- Every step of a shape that heeds keeps the invariant. -/
theorem Inv.step (h : sh.Inv gone cmds) (hstep : ShapeStep gone gens sh a sh' more) (hheeds : sh.Heeds gens a) :
    sh'.Inv gone (cmds ++ if gone then [] else more) := by
  cases hstep with
  | create parkable gate hborn halive =>
    obtain ⟨-,rfl,hattempts⟩ := h.unborn hborn
    have hnone : ∀ m st₀, sh.attempts m ≠ some st₀ := by
      intro m st₀ hm
      rw [hattempts m] at hm
      cases hm
    refine Inv.quietly ⟨fun m k st₀ st₁ hm => absurd hm (hnone m st₀),rfl,fun hunborn => ?_,fun hgone => ?_,?_⟩
    · cases hunborn
    · rw [halive] at hgone
      cases hgone
    · exact ⟨fun m st₀ hm => absurd hm (hnone m st₀),fun _ => ⟨rfl,rfl,rfl⟩⟩
  | claim hreg => exact Inv.quietly ⟨h.single,h.registered,h.unborn,h.dead,h.tidy⟩
  | release => exact Inv.quietly ⟨h.single,h.registered,h.unborn,h.dead,h.tidy⟩
  | @deactivate n hreg hpark hclaims hlife hfree =>
    have htidy := h.tidy
    rw [Tidy,hlife] at htidy
    have hparking : sh.routing.Parking gone cmds n .deactivating := htidy.2
    exact (h.start htidy.1 hfree hlife (.inl ⟨n,rfl,rfl,hparking⟩)).quietly
  | @sendDeactivate n hn =>
    refine h.move hn rfl (fun _ _ => ⟨by simp,by split <;> simp⟩) (fun hparking => ?_)
      (fun _ _ hwaking => by cases hwaking)
    cases hgone : gone with
    | true => rfl
    | false =>
      obtain ⟨rfl,hrouting⟩ := hparking hgone
      exact fun _ => ⟨rfl,hrouting⟩
  | @dropDeactivate n hn hgone =>
    exact h.move hn rfl (fun _ _ => ⟨by simp,by simp⟩) (fun _ => hgone) (fun _ _ hwaking => by cases hwaking)
  | @parked n parked hn =>
    refine (h.finish hn rfl (by simp) fun hrelies => ?_).quietly
    obtain hparking | ⟨resume,hwaking⟩ := hrelies
    · exact .inr ⟨parked,rfl,hparking⟩
    · cases hwaking
  | @leftActive n hn =>
    refine (h.finish hn rfl (by simp) fun hrelies => ?_).quietly
    obtain hparking | ⟨resume,hwaking⟩ := hrelies
    · refine .inl ⟨rfl,fun halive => ?_⟩
      cases halive.symm.trans hparking
    · cases hwaking
  | @touch n parked hlife hfree =>
    have htidy := h.tidy
    rw [Tidy,hlife] at htidy
    have hwaking : sh.routing.Waking gone cmds n parked.resume (.admitting parked) := ⟨rfl,htidy.2⟩
    exact (h.start htidy.1 hfree hlife (.inr ⟨parked.resume,rfl,hwaking⟩)).quietly
  | @admitted n parked hn =>
    refine h.move hn rfl (fun _ _ => ⟨by simp,by simp⟩) (fun hparking => by cases hparking) (fun resume _ hwaking => ?_)
    rwa [ite_self,List.append_nil]
  | @refuse n parked e hn he =>
    refine h.move hn rfl (fun _ _ => ⟨by simp,by simp⟩) (fun hparking => by cases hparking) (fun resume _ hwaking => ?_)
    rwa [ite_self,List.append_nil]
  | @lookUp n parked hn hreg =>
    refine h.move hn rfl (fun hlife _ => ?_) (fun hparking => by cases hparking) (fun resume _ hwaking => ?_)
    · have hsome := h.registered
      rw [hreg,hlife] at hsome
      cases hsome
    · rwa [ite_self,List.append_nil]
  | @lookUpFails n parked hn =>
    refine h.move hn rfl (fun _ _ => ⟨by simp,by simp⟩) (fun hparking => by cases hparking) (fun resume _ hwaking => ?_)
    rwa [ite_self,List.append_nil]
  | @beginShape n parked g hn =>
    refine h.move hn rfl (fun _ hlook => absurd hn (hlook n parked g)) (fun hparking => by cases hparking)
      (fun resume _ hwaking => ?_)
    obtain ⟨hresume,hasleep⟩ := hwaking
    cases hgone : gone with
    | true =>
      rw [if_pos rfl,if_pos rfl,List.append_nil]
      exact ⟨hresume,hasleep⟩
    | false => exact ⟨hresume,hasleep.routed,hasleep.stopped,fun _ => ⟨cmds,rfl,hasleep.aborts⟩⟩
  | @dropBegin n parked g hn hgone =>
    refine h.move hn rfl (fun _ _ => ⟨by simp,by simp⟩) (fun hparking => by cases hparking) (fun resume _ hwaking => ?_)
    rw [ite_self,List.append_nil]
    exact ⟨hwaking.1,h.asleep hgone hwaking.2.2.1⟩
  | @replayed n parked g hn =>
    refine h.move hn rfl (fun _ _ => ⟨by simp,by simp⟩) (fun hparking => by cases hparking) (fun resume _ hwaking => ?_)
    rwa [ite_self,List.append_nil]
  | @replayFails n parked g e hn he =>
    refine h.move hn rfl (fun _ _ => ⟨by simp,by simp⟩) (fun hparking => by cases hparking) (fun resume _ hwaking => ?_)
    obtain ⟨hresume,hrouted,hstopped,rfl⟩ := hwaking
    refine ⟨hresume,?_⟩
    cases hgone : gone with
    | true =>
      rw [if_pos rfl]
      exact h.asleep hgone hstopped
    | false =>
      refine ⟨fun c hc => List.mem_singleton.mp hc,?_,hrouted,hstopped⟩
      change (false,sh.routing.routed.isSome) = _
      rw [hrouted]
      rfl
  | @activateShape n parked g hn =>
    refine h.move hn rfl (fun _ _ => ⟨by simp,by split <;> simp⟩) (fun hparking => by cases hparking)
      (fun resume _ hwaking => ?_)
    obtain ⟨hresume,hrouted,hstopped,rfl⟩ := hwaking
    cases hgone : gone with
    | true =>
      rw [if_pos rfl,if_pos rfl]
      exact ⟨hresume,h.asleep hgone hstopped⟩
    | false => exact ⟨hresume,hrouted,hstopped,fun _ => rfl⟩
  | @dropActivate n parked g hn hgone =>
    refine h.move hn rfl (fun _ _ => ⟨by simp,by simp⟩) (fun hparking => by cases hparking) (fun resume _ hwaking => ?_)
    rw [ite_self,List.append_nil]
    exact ⟨hwaking.1,h.asleep hgone hwaking.2.2.1⟩
  | @unchanged n parked hn =>
    refine h.move hn rfl (fun _ _ => ⟨by simp,by simp⟩) (fun hparking => by cases hparking) (fun resume _ hwaking => ?_)
    rwa [ite_self,List.append_nil]
  | @changed n parked g hn hg =>
    have hretired := (hheeds parked g hn).resolve_left hg
    refine h.move hn rfl (fun _ _ => ⟨by simp,by simp⟩) (fun hparking => by cases hparking) (fun resume hlife _ => ?_)
    cases hretired.symm.trans hlife
  | @woken n parked hn =>
    refine (h.finish hn rfl (by simp) fun hrelies => ?_).quietly
    obtain hparking | ⟨resume,hwaking⟩ := hrelies
    · cases hparking
    · exact .inl ⟨rfl,hwaking⟩
  | @stayDormant n parked e hn =>
    refine (h.finish hn rfl ?_ fun hrelies => ?_).quietly
    · intro st₀ hst₀
      obtain ⟨reason,-,rfl⟩ := Option.map_eq_some_iff.mp hst₀
      rfl
    · obtain hparking | ⟨resume,hresume,hasleep⟩ := hrelies
      · cases hparking
      · exact .inr ⟨parked,rfl,hresume ▸ hasleep⟩
  | @evictAfter n reason idle hn => exact (h.drop hn rfl).evict reason idle
  | evict reason idle => exact h.evict reason idle
  | purge => exact h.purge hheeds

end step

end Shape

/-- The invariant holds of every shape. -/
def Inv (s : Dormancy ι) [DecidableEq ι] : Prop := ∀ i, (s.shapes i).Inv s.gone (box s.queue i)

section Runs
variable [DecidableEq ι] {s s' : Dormancy ι}

lemma inv_start (pos : LogPosition) : (start pos : Dormancy ι).Inv := fun _ =>
  ⟨fun _ _ _ _ hm => (by cases hm),rfl,fun _ => ⟨rfl,rfl,fun _ => rfl⟩,fun hgone => (by cases hgone),
    rfl,fun _ _ _ hm => (by cases hm)⟩

/-- A step is about one shape, and its commands are in that shape's part of the queue. -/
lemma Inv.step {a : Act ι} (h : s.Inv) (hstep : Step s a s') (hheeds : s.Heeds a) : s'.Inv := by
  cases hstep with
  | @shape i a sh cmds hshape =>
    intro j
    change Shape.Inv _ (box (s.queue ++ _) j) (Function.update s.shapes i sh j)
    rw [box_append]
    by_cases hij : i = j
    · subst hij
      rw [box_send,Function.update_self]
      exact (h i).step hshape hheeds
    · rw [box_send_of_ne hij,List.append_nil,Function.update_of_ne (Ne.symm hij)]
      exact h j
  | @handle i c rest misses hqueue =>
    intro j
    have hj := h j
    rw [hqueue] at hj
    change Shape.Inv _ (box rest j) (Function.update s.shapes i _ j)
    by_cases hij : i = j
    · subst hij
      rw [box_cons_self] at hj
      have halive : s.gone = false := by
        cases hgone : s.gone with
        | false => rfl
        | true => cases (hj.dead hgone).1
      rw [Function.update_self,halive]
      rw [halive] at hj
      exact hj.handle
    · rw [box_cons_of_ne hij] at hj
      rw [Function.update_of_ne (Ne.symm hij)]
      exact hj
  | advance pos halive => exact h
  | drift hgens => exact h
  | halt halive =>
    intro j
    have hj := h j
    rw [halive] at hj
    exact hj.halt s.pos

lemma heedingRun_inv {pos : LogPosition} (h : HeedingRun (start pos) s) : s.Inv := by
  induction h with
  | refl => exact inv_start pos
  | tail _ hstep ih =>
    obtain ⟨a,hstep,hheeds⟩ := hstep
    exact ih.step hstep hheeds

lemma Inv.consistent (h : s.Inv) : s.Consistent := by
  have hresting : ∀ i, (s.shapes i).Resting → (s.shapes i).life = none ∨ (s.shapes i).life = some .active ∨
      ∃ parked, (s.shapes i).life = some (.dormant parked) := by
    intro i hrest
    have htidy := (h i).tidy
    unfold Shape.Tidy at htidy
    cases hl : (s.shapes i).life with
    | none => exact .inl rfl
    | some life =>
      rw [hl] at htidy
      cases life with
      | active => exact .inr (.inl rfl)
      | dormant parked => exact .inr (.inr ⟨parked,rfl⟩)
      | deactivating n =>
        obtain ⟨st,hn,hparking⟩ := htidy
        cases (hrest n st hn).symm.trans hparking.inTransition
      | reactivating n resume =>
        obtain ⟨st,hn,hwaking⟩ := htidy
        cases (hrest n st hn).symm.trans hwaking.inTransition
  refine ⟨fun i => (h i).single,fun i n m st st' hn hm hst hst' => ?_,hresting,fun i hquiet halive => ?_,
    fun i parked hl => ?_⟩
  · refine (h i).single n m st st' hn hm ?_ ?_
    · cases st <;> first | rfl | cases hst
    · cases st' <;> first | rfl | cases hst'
  · obtain ⟨hrest,hbox⟩ := hquiet
    have htidy := (h i).tidy
    rw [hbox,halive] at htidy
    unfold Shape.Tidy at htidy
    obtain hl | hl | ⟨parked,hl⟩ := hresting i hrest
    · rw [hl] at htidy
      have hrouted : (s.shapes i).routing.routed.isSome = false := (Prod.ext_iff.mp htidy.1).2
      rw [hrouted,hl]
      simp
    · rw [hl] at htidy
      rw [hl]
      exact iff_of_true (htidy.2 rfl).2.2 rfl
    · rw [hl] at htidy
      rw [hl,htidy.2.routed]
      simp
  · have htidy := (h i).tidy
    unfold Shape.Tidy at htidy
    rw [hl] at htidy
    exact htidy.2.stopped

/-- Where no retirement overtakes a wake and no schema changes under one, shapes and sequencer agree at any time. -/
theorem dormancy_consistent (pos : LogPosition) (s : Dormancy ι) (hrun : HeedingRun (start pos) s) : s.Consistent :=
  (heedingRun_inv hrun).consistent

end Runs

/-- A shape is created, let go and parked, and a touch wakes it. -/
theorem sample_consistent : ∃ s : Dormancy ℕ, HeedingRun (start ⟨0,0⟩) s ∧ s.Consistent ∧
    (s.shapes 0).life = some .active ∧ (s.shapes 0).routing = ⟨false,some .passthrough,some ⟨0,0⟩⟩ := by
  have h : HeedingRun (start ⟨0,0⟩) (start ⟨0,0⟩ : Dormancy ℕ) := .refl
  have h := h.tail ⟨.shape 0 .other,.shape (.create true .passthrough rfl rfl),trivial⟩
  have h := h.tail ⟨.shape 0 .other,.shape .release,trivial⟩
  have h := h.tail ⟨.shape 0 .other,.shape (.deactivate (n := 0) rfl rfl rfl rfl rfl),trivial⟩
  have h := h.tail ⟨.shape 0 .other,.shape (.sendDeactivate (n := 0) rfl),trivial⟩
  have h := h.tail ⟨.sequencer,.handle false rfl,trivial⟩
  have h := h.tail ⟨.shape 0 .other,.shape (.parked (n := 0) rfl),trivial⟩
  have h := h.tail ⟨.sequencer,.advance ⟨0,7⟩ rfl,trivial⟩
  have h := h.tail ⟨.shape 0 .other,.shape (.touch (n := 1) rfl rfl),trivial⟩
  have h := h.tail ⟨.shape 0 .other,.shape (.admitted (n := 1) rfl),trivial⟩
  have h := h.tail ⟨.shape 0 .other,.shape (.lookUp (n := 1) rfl rfl),trivial⟩
  have h := h.tail ⟨.shape 0 .other,.shape (.beginShape (n := 1) rfl),trivial⟩
  have h := h.tail ⟨.sequencer,.handle false rfl,trivial⟩
  have h := h.tail ⟨.shape 0 .other,.shape (.replayed (n := 1) rfl),trivial⟩
  have h := h.tail ⟨.shape 0 .other,.shape (.activateShape (n := 1) rfl),trivial⟩
  have h := h.tail ⟨.sequencer,.handle false rfl,trivial⟩
  have h := h.tail ⟨.shape 0 (.closing 1),.shape (.unchanged (n := 1) rfl),by
    intro parked g hn
    cases hn
    exact .inl rfl⟩
  have h := h.tail ⟨.shape 0 .other,.shape (.woken (n := 1) rfl),trivial⟩
  exact ⟨_,h,dormancy_consistent _ _ h,rfl,rfl⟩

/-- A retirement comes between a wake's look at the record and its `BeginShape`: in the end no transition is under way,
the shape is retired, and the sequencer routes to it. And a schema changes after a wake's activation: the shape is
dormant again from where it was, and the sequencer stopped elsewhere. -/
theorem sample_inconsistent :
    (∃ s : Dormancy ℕ, Run (start ⟨0,0⟩) s ∧ s.Quiet 0 ∧ s.gone = false ∧ (s.shapes 0).life = none ∧
      (s.shapes 0).routing.routed = some .passthrough ∧ ¬s.Consistent) ∧
    ∃ s : Dormancy ℕ, Run (start ⟨0,0⟩) s ∧ s.Quiet 0 ∧ s.gone = false ∧
      (s.shapes 0).life = some (.dormant ⟨⟨0,0⟩,.passthrough⟩) ∧
      (s.shapes 0).routing = ⟨false,none,some ⟨0,7⟩⟩ ∧ ¬s.Consistent := by
  have h : Run (start ⟨0,0⟩) (start ⟨0,0⟩ : Dormancy ℕ) := .refl
  have h := h.tail ⟨.shape 0 .other,.shape (.create true .passthrough rfl rfl)⟩
  have h := h.tail ⟨.shape 0 .other,.shape .release⟩
  have h := h.tail ⟨.shape 0 .other,.shape (.deactivate (n := 0) rfl rfl rfl rfl rfl)⟩
  have h := h.tail ⟨.shape 0 .other,.shape (.sendDeactivate (n := 0) rfl)⟩
  have h := h.tail ⟨.sequencer,.handle false rfl⟩
  have h := h.tail ⟨.shape 0 .other,.shape (.parked (n := 0) rfl)⟩
  have h := h.tail ⟨.shape 0 .other,.shape (.touch (n := 1) rfl rfl)⟩
  have h := h.tail ⟨.shape 0 .other,.shape (.admitted (n := 1) rfl)⟩
  have hlooked := h.tail ⟨.shape 0 .other,.shape (.lookUp (n := 1) rfl rfl)⟩
  constructor
  · have h := hlooked.tail ⟨.shape 0 .purge,.shape .purge⟩
    have h := h.tail ⟨.shape 0 .other,.shape (.beginShape (n := 1) rfl)⟩
    have h := h.tail ⟨.sequencer,.handle false rfl⟩
    have h := h.tail ⟨.sequencer,.handle false rfl⟩
    have h := h.tail ⟨.shape 0 .other,.shape (.replayed (n := 1) rfl)⟩
    have h := h.tail ⟨.shape 0 .other,.shape (.activateShape (n := 1) rfl)⟩
    have h := h.tail ⟨.sequencer,.handle false rfl⟩
    have h := h.tail ⟨.shape 0 (.closing 1),.shape (.unchanged (n := 1) rfl)⟩
    have h := h.tail ⟨.shape 0 .other,.shape (.woken (n := 1) rfl)⟩
    have hzombie : ∃ s : Dormancy ℕ, Run (start ⟨0,0⟩) s ∧ s.Quiet 0 ∧ s.gone = false ∧ (s.shapes 0).life = none ∧
        (s.shapes 0).routing.routed = some .passthrough :=
      ⟨_,h,⟨fun n st hn => (by rcases n with _ | _ | n <;> cases hn),rfl⟩,rfl,rfl,rfl⟩
    obtain ⟨s,hrun,hquiet,halive,hlife,hrouted⟩ := hzombie
    refine ⟨s,hrun,hquiet,halive,hlife,hrouted,fun hconsistent => ?_⟩
    have hactive := (hconsistent.routed 0 hquiet halive).mp (by rw [hrouted]; rfl)
    cases hlife.symm.trans hactive
  · have h := hlooked.tail ⟨.shape 0 .other,.shape (.beginShape (n := 1) rfl)⟩
    have h := h.tail ⟨.sequencer,.handle false rfl⟩
    have h := h.tail ⟨.shape 0 .other,.shape (.replayed (n := 1) rfl)⟩
    have h := h.tail ⟨.shape 0 .other,.shape (.activateShape (n := 1) rfl)⟩
    have h := h.tail ⟨.sequencer,.handle false rfl⟩
    have h := h.tail ⟨.sequencer,.advance ⟨0,7⟩ rfl⟩
    have h := h.tail ⟨.sequencer,.drift (fun i => Nat.zero_le ((fun _ => 1) i))⟩
    have h := h.tail ⟨.shape 0 (.closing 1),.shape (.changed (n := 1) rfl (by decide))⟩
    have h := h.tail ⟨.shape 0 .other,.shape (.stayDormant (n := 1) rfl)⟩
    have h := h.tail ⟨.sequencer,.handle false rfl⟩
    refine ⟨_,h,⟨fun n st hn => (by rcases n with _ | _ | n <;> cases hn),rfl⟩,rfl,rfl,rfl,fun hconsistent => ?_⟩
    cases hconsistent.resume 0 _ rfl

end Dormancy
end ElectricCircuits
