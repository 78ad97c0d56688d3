import ElectricCircuits.Lifecycle.Shares
import ElectricCircuits.Sequencer.Page

/-! The fold of the durable catalog: the shapes that a restart restores, with their subscriptions and
their dormancy. -/
namespace ElectricCircuits

/-- Where the stream of a dormant shape is complete up to, with the fence of its backfill. -/
structure Parked where
  resume : LogPosition
  gate : SnapshotGate

/-- What the catalog records of shapes. The store's identity, checkpoints, segments, consumer pins,
schema changes, receipts and bindings are folded apart from them. -/
inductive CatalogEvent (D : Type*) where
  | created (record : ShapeRecord D) (sig : Option String) (subscription : String) (now : ℕ)
  | joined (id subscription : String) (now : ℕ)
  | left (id subscription : String) (lapsed : Bool)
  | dormant (id : String) (parked : Parked)
  | reactivated (id : String)
  | backfillSized (id : String) (rows bytes : ℕ)
  | dropped (id : String)
  | retired (id : String)
  | elsewhere

/-- A restored shape: its record, its signature, its subscriptions and where it is parked. -/
structure Restored (D : Type*) where
  record : ShapeRecord D
  sig : Option String
  subs : AssocMap String ℕ
  dormant : Option Parked

/-- The number in a shape's id. -/
def shapeIdNum (id : String) : Option ℕ :=
  if id.toList.head? = some 's' then parseUnsigned 10 (2^64) id.toList.tail else none

/-- The part of the fold that is about shapes. An event's id is the writer's nonce with the number that
the writer gave it. -/
structure CatalogFold (D : Type*) where
  recs : AssocMap String (Restored D)
  pendingRetire : AssocMap String String
  maxShapeId : Option ℕ
  seen : List (String × ℕ)

namespace CatalogFold
variable {D : Type*}

def default : CatalogFold D := ⟨.empty,.empty,none,[]⟩

/-- Change the record of an id that the fold has. -/
def edit (f : CatalogFold D) (id : String) (change : Restored D → Restored D) : CatalogFold D :=
  match f.recs.get? id with
  | none => f
  | some e => { f with recs := f.recs.insert id (change e) }

def apply (f : CatalogFold D) : CatalogEvent D → CatalogFold D
  | .created rec sig sub now =>
    { f with
      maxShapeId := match shapeIdNum rec.id with
        | some num => some (f.maxShapeId.elim num (max · num))
        | none => f.maxShapeId
      recs := f.recs.insert rec.id ⟨rec,sig,AssocMap.empty.insert sub now,none⟩ }
  | .joined id sub now =>
    f.edit id fun e => { e with subs := e.subs.insert sub (renewedLease (e.subs.get? sub) now) }
  | .left id sub _ => f.edit id fun e => { e with subs := e.subs.erase sub }
  | .dormant id parked => f.edit id fun e => { e with dormant := some parked }
  | .reactivated id => f.edit id fun e => { e with dormant := none }
  | .backfillSized id rows bytes =>
    f.edit id fun e => { e with record := { e.record with backfill := some (rows,bytes) } }
  | .dropped id =>
    match f.recs.get? id with
    | none => f
    | some e => { f with
        recs := f.recs.erase id
        pendingRetire := f.pendingRetire.insert id e.record.streamPath }
  | .retired id => { f with pendingRetire := f.pendingRetire.erase id }
  | .elsewhere => f

/-- A copy of an event that the fold has applied is ignored. -/
def applyOnce (f : CatalogFold D) (eid : String × ℕ) (ev : CatalogEvent D) : CatalogFold D :=
  if eid ∈ f.seen then f else apply { f with seen := eid::f.seen } ev

end CatalogFold
end ElectricCircuits
