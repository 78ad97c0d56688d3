import ElectricCircuits.Aggregate
import ElectricCircuits.StandaloneIndex

/-! One table's executor: the routing structures that its changes fan out through, the creations in
flight, the commands that change them, and the processing of one envelope. -/
namespace ElectricCircuits

structure StandaloneShape where
  pred : CompiledPredicate
  streamPath : String
  gate : SnapshotGate
  outCols : Option (List ℕ)

/-- One shape registered on an equality template. -/
structure RoutedShape where
  numId : ℕ
  streamPath : String
  gate : SnapshotGate
  outCols : Option (List ℕ)

inductive CreateKind where
  | plain
  | aggregate (func : AggFn) (col : Option ℕ)

/-- A shape between `BeginShape` and `ActivateShape`, buffering the changes of its table. -/
structure PendingShape where
  numId : ℕ
  streamPath : String
  pred : CompiledPredicate
  outCols : Option (List ℕ)
  kind : CreateKind
  buffered : List Envelope
  bufferedBytes : ℕ
  overflowed : Bool

inductive ActivateFailure where
  | pendingBufferOverflow
  | failed (message : String)

/-- A family's router is the index of its shapes by key tuple, under the family's key columns. -/
structure TableExec where
  ts : TableSchema
  shapes : AssocMap String StandaloneShape
  shapeIndex : StandaloneIndex
  families : Buckets (List ℕ) Row RoutedShape
  familyOf : AssocMap String (List ℕ × ℕ × Row)
  aggregates : AssocMap String AggShape
  aggIndex : StandaloneIndex
  pending : AssocMap String PendingShape
  libraryRows : AssocMap String Json

/-- What a transaction has staged so far: envelopes to append, by stream. -/
abbrev Staged := List (String × List Envelope)

/-- The fence coordinates and the stamps of a change. -/
structure Stamp where
  txid : Option String
  lsn : Option String

namespace Stamp

def lsnU64 (s : Stamp) : ℕ := (s.lsn.map lsnToU64).getD 0

def xid (s : Stamp) : Option ℕ := s.txid.bind fun t => parseUnsigned 10 (2^64) t.toList

def skips (s : Stamp) (gate : SnapshotGate) : Bool := gate.shouldSkip s.lsnU64 s.xid

end Stamp

/-- A stateless filter on a delta. -/
def evalStandalone (pred : CompiledPredicate) (delta : Delta) : Delta :=
  delta.filter fun t => pred.matchesRow t.1

/-- Buffer one envelope for a pending shape; over the cap the whole buffer is dropped. `cost` is what
the envelope takes in memory. -/
def bufferPending (cost : Envelope → ℕ) (cap : ℕ) (p : PendingShape) (env : Envelope) : PendingShape :=
  if p.overflowed then p
  else if 0 < cap ∧ cap < p.bufferedBytes+cost env then
    { p with overflowed := true, buffered := [], bufferedBytes := 0 }
  else { p with buffered := p.buffered ++ [env], bufferedBytes := p.bufferedBytes+cost env }

namespace TableExec

def new (ts : TableSchema) : TableExec :=
  ⟨ts,.empty,.empty,.empty,.empty,.empty,.empty,.empty,.empty⟩

/-- The before-image that the executor's own view supplies to a change that has none. -/
def stampBeforeImage (T : TableExec) (env : Envelope) : TableExec × Envelope :=
  let env := if env.old.isNone then { env with old := T.libraryRows.get? env.key } else env
  if env.headers.operation = "delete" then
    ({ T with libraryRows := T.libraryRows.erase env.key },env)
  else
    match env.value with
    | some v => ({ T with libraryRows := T.libraryRows.insert env.key v },env)
    | none => (T,env)

def beginShape (T : TableExec) (sid : String) (numId : ℕ) (streamPath : String)
    (pred : CompiledPredicate) (outCols : Option (List ℕ)) (kind : CreateKind) : TableExec :=
  { T with pending := T.pending.insert sid ⟨numId,streamPath,pred,outCols,kind,[],0,false⟩ }

def abortShape (T : TableExec) (sid : String) : TableExec :=
  { T with pending := T.pending.erase sid }

/-- Register the routing of a plain shape: an equality template joins its family, everything else is a
standalone filter. -/
def place (T : TableExec) (sid : String) (p : PendingShape) (gate : SnapshotGate) : TableExec :=
  match p.pred.equalityTemplate with
  | some pairs =>
    let keyCols := pairs.map (·.1)
    let keyTuple : Row := ⟨pairs.map (·.2)⟩
    { T with
      families := T.families.put keyCols keyTuple ⟨p.numId,p.streamPath,gate,p.outCols⟩
      familyOf := T.familyOf.insert sid (keyCols,p.numId,keyTuple) }
  | none =>
    { T with
      shapeIndex := T.shapeIndex.insert sid p.pred
      shapes := T.shapes.insert sid ⟨p.pred,p.streamPath,gate,p.outCols⟩ }

/-- The buffered changes that the snapshot has not seen, each as its delta. -/
def unseen (ts : TableSchema) (gate : SnapshotGate) (buffered : List Envelope) : List (Delta × Stamp) :=
  buffered.filterMap fun env =>
    match applyEnvelope ts env with
    | .error _ => none
    | .ok (delta,txid,lsn) =>
      if delta.isEmpty then none
      else if Stamp.skips ⟨txid,lsn⟩ gate then none
      else some (delta,⟨txid,lsn⟩)

/-- The replay of a plain shape's buffer. -/
def replayPlain (ts : TableSchema) (p : PendingShape) (gate : SnapshotGate) : List Envelope :=
  (unseen ts gate p.buffered).flatMap fun (delta,stamp) =>
    let matched := evalStandalone p.pred delta
    if matched.isEmpty then [] else translateOutput ts matched stamp.txid stamp.lsn p.outCols

/-- The replay of an aggregate's buffer. -/
def replayAggregate (ts : TableSchema) (agg : AggShape) (changes : List (Delta × Stamp)) :
    AggShape × List Envelope :=
  changes.foldl (fun (agg,outs) (delta,stamp) =>
    let (agg,out) := agg.step ts delta stamp.txid stamp.lsn
    (agg,outs ++ out.toList)) (agg,[])

/-- Make a pending shape live, and append what its buffer has that the snapshot has not. `appended`
tells whether the append to an aggregate's stream goes through. -/
def activateShape (T : TableExec) (sid : String) (gate : SnapshotGate) (aggSeed : Option AggSeed)
    (appended : Bool) : TableExec × Except ActivateFailure (String × List Envelope) :=
  match T.pending.get? sid with
  | none => (T,.error (.failed s!"no pending shape '{sid}' (aborted?)"))
  | some p =>
    let T := { T with pending := T.pending.erase sid }
    if p.overflowed then (T,.error .pendingBufferOverflow)
    else
      match p.kind with
      | .plain => (T.place sid p gate,.ok (p.streamPath,replayPlain T.ts p gate))
      | .aggregate func col =>
        let agg : AggShape := ⟨p.pred,func,col,p.streamPath,gate,aggSeed.getD .default,none⟩
        let first := agg.envelope T.ts none none
        let agg := { agg with last := some agg.value }
        let (agg,outs) := replayAggregate T.ts agg (unseen T.ts gate p.buffered)
        if appended then
          ({ T with
            aggIndex := T.aggIndex.insert sid agg.pred
            aggregates := T.aggregates.insert sid agg },.ok (p.streamPath,first :: outs))
        else (T,.error (.failed "append failed"))

/-- Park a plain shape: unregister it and hand back its gate. -/
def deactivateShape (T : TableExec) (sid : String) : TableExec × Option SnapshotGate :=
  match T.shapes.get? sid with
  | some shape =>
    ({ T with shapes := T.shapes.erase sid, shapeIndex := T.shapeIndex.remove sid },some shape.gate)
  | none =>
    match T.familyOf.get? sid with
    | some (keyCols,numId,keyTuple) =>
      let routed := T.families.bucket keyCols keyTuple
      ({ T with
        familyOf := T.familyOf.erase sid
        families := T.families.edit keyCols keyTuple (·.eraseP (·.numId == numId)) },
        (routed.find? (·.numId == numId)).map (·.gate))
    | none => (T,none)

def removeShape (T : TableExec) (sid : String) : TableExec :=
  let T := { T with pending := T.pending.erase sid }
  if (T.aggregates.get? sid).isSome then
    { T with aggregates := T.aggregates.erase sid, aggIndex := T.aggIndex.remove sid }
  else if (T.shapes.get? sid).isSome then
    { T with shapes := T.shapes.erase sid, shapeIndex := T.shapeIndex.remove sid }
  else
    match T.familyOf.get? sid with
    | some (keyCols,numId,keyTuple) =>
      { T with
        familyOf := T.familyOf.erase sid
        families := T.families.edit keyCols keyTuple (·.filter (·.numId ≠ numId)) }
    | none => T

/-- The row that the key has after the change, if any. -/
def rowNow (delta : Delta) : Option Row := (delta.find? fun t => 0 < t.2).map (·.1)

/-- Standalone shapes: each candidate filters the delta. With a trace subscriber all are visited. -/
def standaloneOutput (T : TableExec) (delta : Delta) (stamp : Stamp) (traced : Bool) : Staged :=
  (if traced then T.shapes.keys else T.shapeIndex.candidates delta).filterMap fun sid =>
    (T.shapes.get? sid).bind fun shape =>
      if stamp.skips shape.gate then none
      else
        let out := evalStandalone shape.pred delta
        if out.isEmpty then none
        else some (shape.streamPath,translateOutput T.ts out stamp.txid stamp.lsn shape.outCols)

/-- One row goes by its key to the shapes registered on that key. -/
def pushes (stamp : Stamp) (keyCols : List ℕ) (index : AssocMap Row (List RoutedShape)) (t : Row × ℤ) :
    List (ℕ × (String × Option (List ℕ)) × Row × ℤ) :=
  match index.get? (keyOf t.1 keyCols) with
  | none => []
  | some routed => (routed.filter fun rs => !stamp.skips rs.gate).map fun rs =>
      (rs.numId,(rs.streamPath,rs.outCols),t)

/-- The rows that one family routes to each of its shapes, by shape number. -/
def byShape (stamp : Stamp) (delta : Delta) (keyCols : List ℕ) (index : AssocMap Row (List RoutedShape)) :
    AssocMap ℕ ((String × Option (List ℕ)) × Delta) :=
  (delta.flatMap (pushes stamp keyCols index)).foldl (fun m x => m.push x.1 x.2.1 x.2.2) .empty

/-- Equality routers: each family groups its rows by shape. -/
def routedOutput (T : TableExec) (delta : Delta) (stamp : Stamp) : Staged :=
  T.families.entries.flatMap fun (keyCols,index) =>
    (byShape stamp delta keyCols index).entries.filterMap fun (_,(path,outCols),rows) =>
      let envs := translateOutput T.ts rows stamp.txid stamp.lsn outCols
      if envs.isEmpty then none else some (path,envs)

/-- Membership stated outright, to every shape of the table. -/
def absoluteOutput (T : TableExec) (key : String) (delta : Delta) (stamp : Stamp) : Staged :=
  let now := rowNow delta
  let emit (path : String) (gate : SnapshotGate) (outCols : Option (List ℕ)) (held : Option Row) :
      Option (String × List Envelope) :=
    if stamp.skips gate then none
    else some (path,[absoluteEnvelope T.ts key held stamp.txid stamp.lsn outCols])
  (T.shapes.entries.filterMap fun (_,shape) =>
    emit shape.streamPath shape.gate shape.outCols (now.filter fun r => shape.pred.matchesRow r)) ++
  T.families.entries.flatMap fun (keyCols,index) =>
    index.entries.flatMap fun (key,routed) =>
      routed.filterMap fun rs =>
        emit rs.streamPath rs.gate rs.outCols (now.filter fun r => keyOf r keyCols == key)

/-- Fold the delta into each candidate aggregate. -/
def aggregateOutput (T : TableExec) (delta : Delta) (stamp : Stamp) (traced : Bool) :
    TableExec × Staged :=
  let candidates := T.aggIndex.candidates delta
  let visits (sid : String) (agg : AggShape) : Bool :=
    (traced || sid ∈ candidates) && !stamp.skips agg.gate
  ({ T with
    aggregates := T.aggregates.mapValues fun sid agg =>
      if visits sid agg then (agg.step T.ts delta stamp.txid stamp.lsn).1 else agg },
  T.aggregates.entries.filterMap fun (sid,agg) =>
    if visits sid agg then
      (agg.step T.ts delta stamp.txid stamp.lsn).2.map fun env => (agg.streamPath,[env])
    else none)

/-- Process one envelope: what it stages, and the aggregates after it. `registry` is the outcome of the
subquery registry's own turn with the delta. -/
def processEnvelope (T : TableExec) (env : Envelope) (libraryMode traced : Bool)
    (registry : Except String Unit) : Except String (TableExec × Staged) :=
  match applyEnvelope T.ts env with
  | .error e => .error e
  | .ok (delta,txid,lsn) =>
    let stamp : Stamp := ⟨txid,lsn⟩
    let absolute := libraryMode && needsAbsoluteEmission env
    if delta.isEmpty && !absolute then .ok (T,[])
    else
      let plain :=
        if absolute then T.absoluteOutput env.key delta stamp
        else T.standaloneOutput delta stamp traced ++ T.routedOutput delta stamp
      if delta.isEmpty then .ok (T,plain)
      else
        match registry with
        | .error e => .error e
        | .ok () =>
          let (T,aggs) := T.aggregateOutput delta stamp traced
          .ok (T,plain ++ aggs)

/-- A change of the table comes in: the before-image in library mode, then the buffers of the creations
in flight. -/
def receive (cost : Envelope → ℕ) (cap : ℕ) (T : TableExec) (env : Envelope) (libraryMode : Bool) :
    TableExec × Envelope :=
  let (T,env) := if libraryMode then T.stampBeforeImage env else (T,env)
  ({ T with pending := T.pending.mapValues fun _ p => bufferPending cost cap p env },env)

end TableExec
end ElectricCircuits
