import ElectricCircuits.Access
import ElectricCircuits.Output

/-! The snapshot gate of a backfill, and the running fold of a scalar aggregate. -/
namespace ElectricCircuits

/-- The visibility fence of a backfill snapshot. -/
structure SnapshotGate where
  lsn : ℕ
  xmin : ℕ
  xmax : ℕ
  xip : List ℕ

namespace SnapshotGate

def passthrough : SnapshotGate := ⟨0,0,0,[]⟩

/-- Was a committed transaction visible to the snapshot? -/
def visible (g : SnapshotGate) (xid : ℕ) : Bool :=
  if g.xmax = 0 then false
  else if xid < g.xmin then true
  else if g.xmax ≤ xid then false
  else xid ∉ g.xip

/-- A change that the backfill already reflects: by its transaction id, or by LSN without one. -/
def shouldSkip (g : SnapshotGate) (commitLsn : ℕ) (xid : Option ℕ) : Bool :=
  match xid with
  | some x => g.visible x
  | none => commitLsn ≠ 0 && g.lsn ≠ 0 && commitLsn < g.lsn

end SnapshotGate

inductive AggFn where
  | count
  | sum
  | avg
  | min
  | max
  deriving DecidableEq

def OrderedFloat.toFloat (f : OrderedFloat) : Float := Float.ofBits (UInt64.ofBitVec f.bits)

def OrderedFloat.ofFloat (f : Float) : OrderedFloat := ⟨f.toBits.toBitVec⟩

def valueF64 : Value → Float
  | .int i => Float.ofInt i
  | .float f => f.toFloat
  | .bool b => if b then 1 else 0
  | _ => 0

/-- The running sum: exact on integers, and a double once a float is folded in. -/
inductive AggSum where
  | int (acc : ℤ)
  | float (acc : Float)

namespace AggSum

/-- Add `v·w`; a retraction has a negative weight. -/
def add (s : AggSum) (v : Value) (w : ℤ) : AggSum :=
  match s,v with
  | float acc,v => float (acc+valueF64 v*Float.ofInt w)
  | int acc,.int i => int (acc+i*w)
  | int acc,.bool b => int (acc+(if b then 1 else 0)*w)
  | int acc,v => float (Float.ofInt acc+valueF64 v*Float.ofInt w)

def toJson : AggSum → Json
  | int v => if v.natAbs ≤ jsonExactIntMax then .int v else .string (toString v)
  | float f => .ofFloat (.ofFloat f)

def asF64 : AggSum → Float
  | int v => Float.ofInt v
  | float f => f

end AggSum

/-- The four terms that an aggregate keeps of its rows. -/
structure AggSeed where
  count : ℤ
  nnCount : ℤ
  sum : AggSum
  multiset : AssocMap Value ℤ

namespace AggSeed

def default : AggSeed := ⟨0,0,.int 0,.empty⟩

/-- Fold one row at weight `w`; a NULL in the aggregated column counts for `COUNT(*)` only. -/
def foldRow (func : AggFn) (col : Option ℕ) (s : AggSeed) (row : Row) (w : ℤ) : AggSeed :=
  match col with
  | none => { s with count := s.count+w }
  | some ci =>
    let v := row.cell ci
    if v = .null then { s with count := s.count+w }
    else
      { count := s.count+w
        nnCount := s.nnCount+w
        sum := s.sum.add v w
        multiset :=
          if func = .min ∨ func = .max then
            let n := (s.multiset.get? v).getD 0+w
            if n ≤ 0 then s.multiset.erase v else s.multiset.insert v n
          else s.multiset }

/-- Fold a delta; only the rows that match count. -/
def foldDelta (pred : CompiledPredicate) (func : AggFn) (col : Option ℕ) (s : AggSeed)
    (delta : Delta) : AggSeed :=
  delta.foldl (fun s t => if pred.matchesRow t.1 then s.foldRow func col t.1 t.2 else s) s

/-- Fold a chunk of backfill rows. -/
def foldRows (pred : CompiledPredicate) (func : AggFn) (col : Option ℕ) (s : AggSeed)
    (rows : List Row) : AggSeed := s.foldDelta pred func col (rows.map (·,1))

/-- The least key of the multiset, or the greatest. -/
def extreme (s : AggSeed) (le : Value → Value → Bool) : Json :=
  match s.multiset.keys with
  | [] => .null
  | k :: ks => (ks.foldl (fun best k => if le best k then best else k) k).toJson

/-- The current value as JSON. -/
def value (func : AggFn) (col : Option ℕ) (s : AggSeed) : Json :=
  match func with
  | .count => .int (if col.isSome then s.nnCount else s.count)
  | .sum => if 0 < s.nnCount then s.sum.toJson else .null
  | .avg =>
    if 0 < s.nnCount then .ofFloat (.ofFloat (s.sum.asF64 / Float.ofInt s.nnCount)) else .null
  | .min => s.extreme fun a b => a.code ≤ b.code
  | .max => s.extreme fun a b => b.code ≤ a.code

end AggSeed

/-- Equality of the scalars that an aggregate's value can be. -/
def Json.scalarEq : Json → Json → Bool
  | .null,.null => true
  | .bool b,.bool c => b == c
  | .int i,.int j => i == j
  | .float f,.float g => f.key == g.key
  | .string s,.string t => s == t
  | _,_ => false

/-- A scalar aggregate, maintained over the rows that match its predicate. -/
structure AggShape where
  pred : CompiledPredicate
  func : AggFn
  col : Option ℕ
  streamPath : String
  gate : SnapshotGate
  terms : AggSeed
  last : Option Json

namespace AggShape

def value (a : AggShape) : Json := a.terms.value a.func a.col

/-- Fold a delta into the aggregate, and tell whether a row matched. -/
def apply (a : AggShape) (delta : Delta) : AggShape × Bool :=
  ({ a with terms := a.terms.foldDelta a.pred a.func a.col delta },
    delta.any fun t => a.pred.matchesRow t.1)

def envelope (a : AggShape) (ts : TableSchema) (txid lsn : Option String) : Envelope :=
  aggEnvelope ts.table a.value a.terms.count txid lsn

/-- Fold a delta, and emit the value if it moved. -/
def step (a : AggShape) (ts : TableSchema) (delta : Delta) (txid lsn : Option String) :
    AggShape × Option Envelope :=
  let (a,touched) := a.apply delta
  if touched && !(a.last.any (·.scalarEq a.value)) then
    let a := { a with last := some a.value }
    (a,some (a.envelope ts txid lsn))
  else (a,none)

/-- A delta without a matching row leaves the aggregate as it is. -/
lemma step_of_no_match {a : AggShape} {delta : Delta}
    (h : ∀ t ∈ delta, a.pred.matchesRow t.1 = false) (ts : TableSchema) (txid lsn : Option String) :
    a.step ts delta txid lsn = (a,none) := by
  have hfold : a.terms.foldDelta a.pred a.func a.col delta = a.terms := by
    rw [AggSeed.foldDelta]
    induction delta with
    | nil => rfl
    | cons t delta ih =>
      rw [List.foldl_cons,if_neg (by simp [h t List.mem_cons_self])]
      exact ih fun t ht => h t (List.mem_cons_of_mem _ ht)
  have hany : delta.any (fun t => a.pred.matchesRow t.1) = false :=
    List.any_eq_false.mpr fun t ht => by simp [h t ht]
  simp [step,apply,hfold,hany]

end AggShape
end ElectricCircuits
