import ElectricCircuits.Schema

/-! The envelope codec: a change as a Z-set delta, and an output delta as one envelope per key. -/
namespace ElectricCircuits

/-- Rows with signed multiplicities. -/
abbrev Delta := List (Row × ℤ)

/-- The input delta of a change, with its transaction id and commit LSN. -/
def applyEnvelope (ts : TableSchema) (env : Envelope) :
    Except String (Delta × Option String × Option String) :=
  let toRow (v : Json) : Except String Row :=
    match v with
    | .object _ => ts.rowFromJson v
    | _ => .error "envelope row is not an object"
  let delta : Except String Delta :=
    if env.headers.operation ∈ ["insert","update","upsert"] then
      match env.value with
      | none => .error "insert/update envelope missing value"
      | some value => do
        let new ← toRow value
        match env.old with
        | some old =>
          let old ← toRow old
          if old == new then pure [] else pure [(old,-1),(new,1)]
        | none => pure [(new,1)]
    else if env.headers.operation = "delete" then
      match env.old with
      | some old => do pure [(← toRow old,-1)]
      | none => pure []
    else .error s!"unknown operation '{env.headers.operation}'"
  delta.map fun delta => (delta,env.headers.txid,env.headers.lsn)

/-- A change that removes or replaces a row without a before-image: membership is stated outright. -/
def needsAbsoluteEmission (env : Envelope) : Bool :=
  env.old.isNone && env.headers.operation ∈ ["delete","update","upsert"]

/-- What the envelopes of one output share. -/
def outputHeaders (operation : String) (txid lsn : Option String) : EnvelopeHeaders :=
  ⟨operation,txid,lsn,none,none⟩

/-- `upsert` of the row that the shape holds now, or `delete` of a key that it must not hold. -/
def absoluteEnvelope (ts : TableSchema) (key : String) (row : Option Row) (txid lsn : Option String)
    (outCols : Option (List ℕ)) : Envelope :=
  match row with
  | some r => ⟨ts.table,key,some (ts.rowToJsonCols r outCols),none,outputHeaders "upsert" txid lsn⟩
  | none => ⟨ts.table,key,none,none,outputHeaders "delete" txid lsn⟩

/-- The rows of an output by key: the last one of positive weight, and the keys of negative ones. -/
structure Legs where
  pos : AssocMap String Row
  neg : List String
  order : List String

def Legs.empty : Legs := ⟨.empty,[],[]⟩

def Legs.add (ts : TableSchema) (l : Legs) (t : Row × ℤ) : Legs :=
  match ts.keyString t.1 with
  | .error _ => l
  | .ok pk =>
    { pos := if 0 < t.2 then l.pos.insert pk t.1 else l.pos
      neg := if t.2 < 0 ∧ pk ∉ l.neg then l.neg ++ [pk] else l.neg
      order := if (l.pos.get? pk).isNone ∧ pk ∉ l.neg then l.order ++ [pk] else l.order }

/-- An output delta as envelopes: an `upsert` for each key with a positive row, then a `delete` for
each other key. -/
def translateOutput (ts : TableSchema) (out : Delta) (txid lsn : Option String)
    (outCols : Option (List ℕ)) : List Envelope :=
  let l := out.foldl (Legs.add ts) Legs.empty
  l.order.filterMap (fun pk => (l.pos.get? pk).map fun row =>
    ⟨ts.table,pk,some (ts.rowToJsonCols row outCols),none,outputHeaders "upsert" txid lsn⟩) ++
  (l.order.filter fun pk => pk ∈ l.neg && (l.pos.get? pk).isNone).map fun pk =>
    ⟨ts.table,pk,none,none,outputHeaders "delete" txid lsn⟩

/-- The one row of an aggregate's stream. -/
def aggEnvelope (table : String) (value : Json) (n : ℤ) (txid lsn : Option String) : Envelope :=
  ⟨table,"agg",some (.object [("value",value),("n",.int n)]),none,outputHeaders "upsert" txid lsn⟩

end ElectricCircuits
