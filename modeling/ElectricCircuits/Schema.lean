import ElectricCircuits.Envelope
import ElectricCircuits.Lib.AssocMap
import ElectricCircuits.Lib.Binary64

/-! The compiled table schema: cells and rows as JSON, and the key string that names a row on a stream. -/
namespace ElectricCircuits

inductive ColumnType where
  | int
  | text
  | bool
  | float
  deriving DecidableEq

/-- `f64`'s `Display`. -/
def OrderedFloat.toText (f : OrderedFloat) : String :=
  if f.isNan then "NaN"
  else
    (if f.isNegative then "-" else "") ++
      (if f.magnitude = 0x7FF0000000000000 then "inf"
      else if f.magnitude = 0 then "0"
      else String.ofList (Binary64.display f.magnitude))

def OrderedFloat.isFinite (f : OrderedFloat) : Bool := decide (f.magnitude < 0x7FF0000000000000)

/-- `i as f64`: the nearest double. -/
def OrderedFloat.ofInt (i : ℤ) : OrderedFloat :=
  ⟨BitVec.ofNat 64 (Binary64.ofNat i.natAbs+if i < 0 then 2^63 else 0)⟩

lemma OrderedFloat.nearest_ofInt {i : ℤ} (h : i.natAbs ≤ 2^63) :
    Binary64.Nearest (OrderedFloat.ofInt i).key i ∧ (OrderedFloat.ofInt i).isFinite = true := by
  have hrounds := Binary64.roundsTo_ofNat i.natAbs
  have hlt : Binary64.ofNat i.natAbs < 0x7FF0000000000000 := by
    have hcast : (i.natAbs : ℚ)*2^1076 ≤ ((2^63 : ℕ) : ℚ)*2^1076 :=
      mul_le_mul_of_nonneg_right (by exact_mod_cast h) (by positivity)
    exact lt_of_le_of_lt (Binary64.roundsTo_mono hcast hrounds (Binary64.roundsTo_ofNat (2^63))) (by decide)
  have habs : (i.natAbs : ℚ) = |(i : ℚ)| := by rw [Nat.cast_natAbs,Int.cast_abs]
  rw [habs] at hrounds
  generalize hm : Binary64.ofNat i.natAbs = m at hrounds hlt
  have hbits : (OrderedFloat.ofInt i).bits.toNat = m+if i < 0 then 2^63 else 0 := by
    rw [OrderedFloat.ofInt,hm,BitVec.toNat_ofNat,Nat.mod_eq_of_lt]
    split <;> omega
  have hmag : (OrderedFloat.ofInt i).magnitude = m := by
    rw [OrderedFloat.magnitude,hbits]
    split <;> omega
  have hsign : (OrderedFloat.ofInt i).isNegative = decide (i < 0) := by
    rw [OrderedFloat.isNegative,BitVec.msb_eq_decide,hbits]
    split <;> simp <;> omega
  have hkey : (OrderedFloat.ofInt i).key = if i < 0 then -(m : ℤ) else m := by
    rw [OrderedFloat.key,OrderedFloat.isNan,hmag,hsign,if_neg (by simp; omega)]
    simp
  refine ⟨⟨?_,fun hi => ?_,fun hi => ?_⟩,?_⟩
  · rw [hkey]
    split <;> simpa using hrounds
  · rw [hkey,if_neg (by exact_mod_cast not_lt.mpr hi)]
    exact Int.natCast_nonneg m
  · rw [hkey]
    split
    · omega
    · obtain rfl : i = 0 := le_antisymm (by exact_mod_cast hi) (not_lt.mp ‹_›)
      have hzero : m = 0 := Binary64.eq_zero_of_roundsTo (by simpa using hrounds)
      simp [hzero]
  · rw [OrderedFloat.isFinite,hmag]
    exact decide_eq_true hlt

def jsonExactIntMax : ℕ := 9007199254740991

/-- A signed 64-bit decimal, as `i64::from_str`. -/
def parseI64 (s : List Char) : Option ℤ :=
  if s.head? = some '-' then
    if s.tail.head? = some '+' then none
    else (parseUnsigned 10 (2^63+1) s.tail).map fun n => -(n : ℤ)
  else (parseUnsigned 10 (2^63) s).map fun n => (n : ℤ)

def Json.asI64 : Json → Option ℤ
  | .int i => if -2^63 ≤ i ∧ i < 2^63 then some i else none
  | _ => none

def Json.asF64 : Json → Option OrderedFloat
  | .int i => some (.ofInt i)
  | .float f => some f
  | _ => none

/-- A double as a JSON number; JSON has none that is not finite. -/
def Json.ofFloat (f : OrderedFloat) : Json := if f.isFinite then .float f else .null

namespace Value

def fromJson (j : Json) (ty : ColumnType) : Except String Value :=
  match j,ty with
  | .null,_ => .ok .null
  | .string s,.int =>
    match parseI64 s.toList with
    | some i => .ok (.int i)
    | none => .error s!"expected an integer, got '{s}'"
  | j,.int =>
    match j.asI64 with
    | some i => .ok (.int i)
    | none => .error "expected an integer"
  | j,.float =>
    match j.asF64 with
    | some f => .ok (.float f)
    | none => .error "expected a float"
  | .string s,.text => .ok (.text s)
  | _,.text => .error "expected a string"
  | .bool b,.bool => .ok (.bool b)
  | _,.bool => .error "expected a bool"

/-- The wire form of a cell; an integer that a double cannot carry is a decimal string. -/
def toJson : Value → Json
  | null => .null
  | int i => if i.natAbs ≤ jsonExactIntMax then .int i else .string (toString i)
  | float f => .ofFloat f
  | text s => .string s
  | bool b => .bool b

/-- The string form used in the key of an envelope. -/
def toKeyString : Value → String
  | null => "null"
  | int i => toString i
  | float f => f.toText
  | text s => s
  | bool b => toString b

end Value

def Row.get (r : Row) (idx : ℕ) : Except String Value :=
  match r.cells[idx]? with
  | some v => .ok v
  | none => .error s!"column index {idx} out of range"

/-- The separator of composite keys, U+001F. -/
def pkSep : Char := Char.ofNat 0x1f

/-- An escaped component has no bare separator and no bare backslash. -/
def escapeKeyComponent (part : String) : String :=
  String.ofList (part.toList.flatMap fun c =>
    if c = '\\' then ['\\','\\'] else if c = pkSep then ['\\','x','1','f'] else [c])

def joinKeyComponents (parts : List String) : String :=
  String.ofList ([pkSep].intercalate (parts.map fun part => (escapeKeyComponent part).toList))

/-- Columns in their positional order, and the primary key among them. -/
structure TableSchema where
  table : String
  columns : List (String × ColumnType)
  pkCols : List ℕ
  names_nodup : (columns.map (·.1)).Nodup
  pk_ne_nil : pkCols ≠ []
  pk_lt : ∀ i ∈ pkCols, i < columns.length

namespace TableSchema
variable (ts : TableSchema)

/-- The identity of a row on every stream of the table. -/
def keyString (row : Row) : Except String String :=
  match ts.pkCols with
  | [i] => (row.get i).map Value.toKeyString
  | cols => (cols.mapM fun i => (row.get i).map Value.toKeyString).map joinKeyComponents

def rowFromJson (j : Json) : Except String Row :=
  (ts.columns.mapM fun c => Value.fromJson ((j.get? c.1).getD .null) c.2).map Row.mk

/-- A row as an object; with `cols` only those columns. -/
def rowToJsonCols (row : Row) (cols : Option (List ℕ)) : Json :=
  .object ((cols.getD (List.range ts.columns.length)).filterMap fun i =>
    (ts.columns[i]?).map fun c => (c.1,(row.cell i).toJson))

/-- A table with a numeric key and one more number. -/
def sample : TableSchema where
  table := "issues"
  columns := [("id",.int),("level",.int)]
  pkCols := [0]
  names_nodup := by decide
  pk_ne_nil := by decide
  pk_lt := by decide

end TableSchema
end ElectricCircuits
