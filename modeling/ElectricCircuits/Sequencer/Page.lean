import ElectricCircuits.Envelope
import ElectricCircuits.Lib.Replay
import Mathlib.Data.List.SplitBy

/-! One read of the sequencer loop: the held run is re-attached to the page, an unterminated trailing
run is held back, and what is left is processed run by run behind the `(lsn, seq)` high-water mark. -/
namespace ElectricCircuits
open Replay

/-- A position in the segmented change log; the opaque offset is the number of envelopes before it. -/
structure LogPosition where
  segment : ℕ
  offset : ℕ
  deriving DecidableEq

def LogPosition.startOf (n : ℕ) : LogPosition := ⟨n,0⟩

structure LoopState where
  pos : LogPosition
  held : List Envelope
  heldFrom : Option LogPosition
  highwater : Option (ℕ ×ₗ ℕ)
  rotateTo : Option ℕ

/-- The loop after a restart from a checkpoint. -/
def LoopState.restart (start : LogPosition) (highwater : Option (ℕ ×ₗ ℕ)) : LoopState :=
  ⟨start,[],none,highwater,none⟩

/-- The position that a held run pins publication to. -/
def published (pos : LogPosition) (heldFrom : Option LogPosition) : LogPosition :=
  heldFrom.getD pos

/-- Where the trailing run of a page begins when it does not end on the transaction-end marker. -/
def unterminatedTail (envs : List Envelope) : Option ℕ :=
  match envs.getLast? with
  | none => none
  | some last =>
    if last.headers.last = some true then none
    else if last.headers.seq = none then none
    else some (envs.rdropWhile (·.runKey == last.runKey)).length

/-- An envelope of the leading run that the held run does not have yet. -/
def beyond (held : Envelope) (e : Envelope) : Bool :=
  match e.headers.seq,held.headers.seq with
  | some seq,some hs => hs < seq
  | _,_ => true

/-- The page once the held run is re-attached, with the transaction it was merged from. A page that
goes on with a different transaction discards the held fragment. -/
def reattach (held page : List Envelope) :
    List Envelope × Option (Option String × Option String) :=
  match held.getLast? with
  | none => (page,none)
  | some h =>
    let lead := page.takeWhile (·.runKey == h.runKey)
    if lead = [] ∧ page ≠ [] then (page,none)
    else (held ++ (lead.filter (beyond h) ++ page.dropWhile (·.runKey == h.runKey)),some h.runKey)

/-- The runs of equal `(txid, lsn)` of a batch. -/
def runsOf (envs : List Envelope) : List (List Envelope) := envs.splitBy (·.runKey == ·.runKey)

/-- What one read makes of the held run and the page: the runs to process and the run to hold. -/
structure Intake where
  runs : List (List Envelope)
  held : List Envelope
  continuation : Bool

def intake (held page : List Envelope) : Intake :=
  let (envs,mergedFrom) := reattach held page
  match unterminatedTail envs with
  | some cut =>
    { runs := runsOf (envs.take cut)
      held := envs.drop cut
      continuation := mergedFrom.isSome && (envs.drop cut).head?.map (·.runKey) == mergedFrom }
  | none => { runs := runsOf envs, held := [], continuation := false }

/-- One flush: a run, and the envelopes of it that the high-water mark lets through. -/
structure Flush where
  run : List Envelope
  fresh : List Envelope

/-- Process runs one after the other, each flushed before the next. -/
def processRuns (highwater : Option (ℕ ×ₗ ℕ)) :
    List (List Envelope) → Option (ℕ ×ₗ ℕ) × List Flush
  | [] => (highwater,[])
  | run :: runs =>
    let (hw,fresh) := dedup Envelope.position highwater run
    ((processRuns hw runs).1,⟨run,fresh⟩ :: (processRuns hw runs).2)

/-- What a read of the current segment returned. -/
structure ReadResult where
  envelopes : List Envelope
  nextOffset : Option ℕ
  closed : Bool

/-- Once the segment is closed and a read brings nothing more, go on with the one that its rotation
pointer named, or with its successor. -/
def crossSegment (pos next : LogPosition) (rr : ReadResult) (rotateTo : Option ℕ) :
    LogPosition × Option ℕ :=
  let advanced := rr.nextOffset.any (· ≠ pos.offset)
  if rr.closed ∧ (rr.envelopes.length = 0 ∨ !advanced) then
    (.startOf (rotateTo.getD (next.segment+1)),none)
  else (next,rotateTo)

/-- The body of the read branch. `failAt` is the run in which processing fails, if one does: its
effects are dropped, and the cursor goes back to where the held run, or this page, began. -/
def readPage (s : LoopState) (rr : ReadResult) (failAt : Option ℕ) : LoopState × List Flush :=
  let pos := match rr.nextOffset with
    | some n => { s.pos with offset := n }
    | none => s.pos
  let rotateTo := (rotationTargetIn rr.envelopes).or s.rotateTo
  let page := rr.envelopes.filter (!isControl ·)
  let taken := intake s.held page
  let heldFrom :=
    if taken.held = [] then none
    else if taken.continuation then s.heldFrom
    else some ⟨pos.segment,s.pos.offset⟩
  match failAt with
  | some m =>
    let (highwater,flushes) := processRuns s.highwater (taken.runs.take m)
    match s.heldFrom with
    | some from_ => (⟨from_,taken.held,some from_,highwater,rotateTo⟩,flushes)
    | none => (⟨{ pos with offset := s.pos.offset },taken.held,heldFrom,highwater,rotateTo⟩,flushes)
  | none =>
    let (highwater,flushes) := processRuns s.highwater taken.runs
    let (pos,rotateTo) := crossSegment s.pos pos rr rotateTo
    (⟨pos,taken.held,heldFrom,highwater,rotateTo⟩,flushes)

end ElectricCircuits
