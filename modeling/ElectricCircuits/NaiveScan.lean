import ElectricCircuits.TableExec

/-! What the executor is for: a registry of live shapes, each with its own predicate, and an envelope
offered to every one of them. The commands do to the registry what the source's commands do to the
routing structures. -/
namespace ElectricCircuits

inductive Live where
  | plain (shape : StandaloneShape)
  | aggregate (agg : AggShape)

structure Registry where
  pending : AssocMap String PendingShape
  live : AssocMap String Live

/-- The shapes' ids are minted from their numbers. -/
def shapeId (numId : ℕ) : String := "s" ++ Nat.repr numId

@[simp] lemma shapeId_inj {m n : ℕ} : shapeId m = shapeId n ↔ m = n := by
  refine ⟨fun h => ?_,congrArg shapeId⟩
  have hl := congrArg String.toList h
  rw [shapeId,shapeId,String.toList_append,String.toList_append] at hl
  exact Binary64.repr_inj (String.toList_inj.mp (List.append_cancel_left hl))

namespace Registry

def empty : Registry := ⟨.empty,.empty⟩

def beginShape (R : Registry) (sid : String) (p : PendingShape) : Registry :=
  { R with pending := R.pending.insert sid p }

def abortShape (R : Registry) (sid : String) : Registry :=
  { R with pending := R.pending.erase sid }

def add (R : Registry) (sid : String) (l : Live) : Registry :=
  { R with live := R.live.insert sid l }

def drop (R : Registry) (sid : String) : Registry :=
  { R with live := R.live.erase sid }

/-- An activation that goes through adds the shape. -/
def activateShape (R : Registry) (ts : TableSchema) (sid : String) (gate : SnapshotGate)
    (aggSeed : Option AggSeed) (appended : Bool) : Registry :=
  match R.pending.get? sid with
  | none => R
  | some p =>
    let R := R.abortShape sid
    if p.overflowed then R
    else
      match p.kind with
      | .plain => R.add sid (.plain ⟨p.pred,p.streamPath,gate,p.outCols⟩)
      | .aggregate func col =>
        let agg : AggShape := ⟨p.pred,func,col,p.streamPath,gate,aggSeed.getD .default,none⟩
        let agg := (TableExec.replayAggregate ts { agg with last := some agg.value }
          (TableExec.unseen ts gate p.buffered)).1
        if appended then R.add sid (.aggregate agg) else R

def deactivateShape (R : Registry) (sid : String) : Registry × Option SnapshotGate :=
  match R.live.get? sid with
  | some (.plain shape) => (R.drop sid,some shape.gate)
  | _ => (R,none)

def removeShape (R : Registry) (sid : String) : Registry :=
  (R.abortShape sid).drop sid

/-- Every plain shape evaluates its own predicate on every row of the delta; in absolute mode on the row
that the key has now. -/
def plainOutput (R : Registry) (ts : TableSchema) (key : String) (delta : Delta) (stamp : Stamp)
    (absolute : Bool) : Staged :=
  R.live.entries.filterMap fun (_,l) =>
    match l with
    | .plain s =>
      if stamp.skips s.gate then none
      else if absolute then
        let held := (TableExec.rowNow delta).filter fun r => s.pred.matchesRow r
        some (s.streamPath,[absoluteEnvelope ts key held stamp.txid stamp.lsn s.outCols])
      else
        some (s.streamPath,translateOutput ts (evalStandalone s.pred delta) stamp.txid stamp.lsn s.outCols)
    | .aggregate _ => none

/-- Every aggregate folds the delta. -/
def foldAggregates (R : Registry) (ts : TableSchema) (delta : Delta) (stamp : Stamp) :
    Registry × Staged :=
  ({ R with
    live := R.live.mapValues fun _ l =>
      match l with
      | .plain s => .plain s
      | .aggregate a =>
        if stamp.skips a.gate then .aggregate a
        else .aggregate (a.step ts delta stamp.txid stamp.lsn).1 },
  R.live.entries.filterMap fun (_,l) =>
    match l with
    | .plain _ => none
    | .aggregate a =>
      if stamp.skips a.gate then none
      else (a.step ts delta stamp.txid stamp.lsn).2.map fun env => (a.streamPath,[env]))

/-- One envelope, offered to every live shape. -/
def processEnvelope (R : Registry) (ts : TableSchema) (env : Envelope) (libraryMode : Bool)
    (registry : Except String Unit) : Except String (Registry × Staged) :=
  match applyEnvelope ts env with
  | .error e => .error e
  | .ok (delta,txid,lsn) =>
    let stamp : Stamp := ⟨txid,lsn⟩
    let absolute := libraryMode && needsAbsoluteEmission env
    if delta.isEmpty && !absolute then .ok (R,[])
    else
      let plain := R.plainOutput ts env.key delta stamp absolute
      if delta.isEmpty then .ok (R,plain)
      else
        match registry with
        | .error e => .error e
        | .ok () =>
          let (R,aggs) := R.foldAggregates ts delta stamp
          .ok (R,plain ++ aggs)

/-- The creations in flight buffer the change. -/
def receive (cost : Envelope → ℕ) (cap : ℕ) (R : Registry) (env : Envelope) : Registry :=
  { R with pending := R.pending.mapValues fun _ p => bufferPending cost cap p env }

end Registry
end ElectricCircuits
