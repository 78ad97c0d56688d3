import ElectricCircuits.JsonText
import ElectricCircuits.Predicate
import Mathlib.Data.List.Sort

/-! The predicate of a request, the canonical text under which shapes and subquery nodes are shared,
and its compilation against a table. -/
namespace ElectricCircuits

/-- A constant in a predicate; its numbers are those of JSON. -/
structure Literal where
  json : Json
  finite : json.finite = true

lemma Json.finite_int (i : ℤ) : (int i).finite = true := rfl

/-- `PredicateJson`; a subquery leaf carries the fields of its `SubqueryJson`. -/
inductive PredicateJson where
  | leaf (col : String) (op : LeafOp) (value : Literal)
  | isNull (col : String) (isNull : Bool)
  | and (ps : List PredicateJson)
  | or (ps : List PredicateJson)
  | not (p : PredicateJson)
  | inSubquery (col : String) (negated : Bool) (table project : String)
    (where_ : Option PredicateJson)

/-- `LeafOp`'s `Debug`. -/
def LeafOp.debug : LeafOp → String
  | .eq => "Eq"
  | .neq => "Neq"
  | .lt => "Lt"
  | .lte => "Lte"
  | .gt => "Gt"
  | .gte => "Gte"
  | .like => "Like"

/-- `sort` and `join(",")`. -/
def sortJoin (cs : List String) : String := ",".intercalate (cs.insertionSort (· ≤ ·))

mutual

/-- The canonical text of a predicate, the children of AND and OR sorted by their own text. -/
@[grind =]
def canonicalPred (ft : FloatText) : PredicateJson → String
  | .leaf col op value =>
    "L(" ++ col ++ "," ++ op.debug ++ "," ++ String.ofList (value.json.chars ft) ++ ")"
  | .isNull col b => "U(" ++ col ++ "," ++ toString b ++ ")"
  | .and ps => "A(" ++ sortJoin (canonicalPreds ft ps) ++ ")"
  | .or ps => "O(" ++ sortJoin (canonicalPreds ft ps) ++ ")"
  | .not p => "N(" ++ canonicalPred ft p ++ ")"
  | .inSubquery col negated table project where_ =>
    "I(" ++ col ++ "," ++ toString negated ++ "," ++
      (table ++ "|" ++ project ++ "|" ++ canonicalWhere ft where_) ++ ")"

def canonicalPreds (ft : FloatText) : List PredicateJson → List String
  | [] => []
  | p :: ps => canonicalPred ft p :: canonicalPreds ft ps

def canonicalWhere (ft : FloatText) : Option PredicateJson → String
  | none => ""
  | some p => canonicalPred ft p

end

/-- The signature of a subquery node. -/
def subquerySig (ft : FloatText) (table project : String) (where_ : Option PredicateJson) :
    SubquerySig :=
  table ++ "|" ++ project ++ "|" ++ canonicalWhere ft where_

lemma canonicalPreds_eq (ft : FloatText) (ps : List PredicateJson) :
    canonicalPreds ft ps = ps.map (canonicalPred ft) := by
  induction ps with
  | nil => rfl
  | cons p ps ih => rw [canonicalPreds,ih,List.map_cons]

namespace TableSchema
variable (ts : TableSchema)

def columnIndex (col : String) : Except String ℕ :=
  match (ts.columns.map (·.1)).idxOf? col with
  | some i => .ok i
  | none => .error s!"unknown column '{col}'"

def columnType (idx : ℕ) : ColumnType := (ts.columns.getD idx ("",.text)).2

end TableSchema

/-- A literal of a predicate; a string is coerced to the type of the column. -/
def Value.literalFromJson (parseF64 : String → Option OrderedFloat) (j : Json) (ty : ColumnType) :
    Except String Value :=
  match j with
  | .string s =>
    match ty with
    | .text => .ok (.text s)
    | .int =>
      match parseI64 s.toList with
      | some i => .ok (.int i)
      | none => .error s!"invalid integer literal '{s}'"
    | .float =>
      match parseF64 s with
      | some f => .ok (.float f)
      | none => .error s!"invalid float literal '{s}'"
    | .bool =>
      if s ∈ ["t","true","TRUE","True"] then .ok (.bool true)
      else if s ∈ ["f","false","FALSE","False"] then .ok (.bool false)
      else .error s!"invalid boolean literal '{s}'"
  | _ => Value.fromJson j ty

/-- `SubqueryCollector::collect`. -/
abbrev SubqueryCollector := String → String → Option PredicateJson → Except String SubquerySig

namespace CompiledPredicate

mutual

/-- `CompiledPredicate::compile_with`. -/
def compileWith (parseF64 : String → Option OrderedFloat) (ts : TableSchema)
    (collector : SubqueryCollector) : PredicateJson → Except String CompiledPredicate
  | .leaf col op value => do
    let idx ← ts.columnIndex col
    let v ← Value.literalFromJson parseF64 value.json (ts.columnType idx)
    return .cmp idx op v
  | .isNull col b => do
    let idx ← ts.columnIndex col
    return .isNull idx b
  | .and ps => do return .and (← compileAll parseF64 ts collector ps)
  | .or ps => do return .or (← compileAll parseF64 ts collector ps)
  | .not p => do return .not (← compileWith parseF64 ts collector p)
  | .inSubquery col negated table project where_ => do
    let idx ← ts.columnIndex col
    let sig ← collector table project where_
    return .inSubquery idx sig negated

def compileAll (parseF64 : String → Option OrderedFloat) (ts : TableSchema)
    (collector : SubqueryCollector) : List PredicateJson → Except String (List CompiledPredicate)
  | [] => return []
  | p :: ps => do return (← compileWith parseF64 ts collector p) :: (← compileAll parseF64 ts collector ps)

end

/-- `CompiledPredicate::compile_opt_with`; without a WHERE every row matches. -/
def compileOptWith (parseF64 : String → Option OrderedFloat) (ts : TableSchema)
    (collector : SubqueryCollector) : Option PredicateJson → Except String CompiledPredicate
  | some p => compileWith parseF64 ts collector p
  | none => .ok .matchAll

end CompiledPredicate

namespace PredicateJson

/-- Induction over a predicate, the lists it nests and the WHEREs of its subqueries. -/
@[elab_as_elim]
theorem induction_on {motive : PredicateJson → Prop} (leaf : ∀ col op value, motive (leaf col op value))
    (isNull : ∀ col b, motive (isNull col b))
    (and : ∀ ps, (∀ p ∈ ps, motive p) → motive (and ps))
    (or : ∀ ps, (∀ p ∈ ps, motive p) → motive (or ps))
    (not : ∀ p, motive p → motive (not p))
    (inSubquery : ∀ col negated table project where_, (∀ p ∈ where_, motive p) →
      motive (inSubquery col negated table project where_)) (p : PredicateJson) : motive p := by
  refine @PredicateJson.rec motive (fun ps => ∀ p ∈ ps, motive p) (fun w => ∀ p ∈ w, motive p)
    leaf isNull and or not inSubquery ?_ ?_ ?_ ?_ p
  · simp
  · intro p ps ih ihs
    exact List.forall_mem_cons.mpr ⟨ih,ihs⟩
  · simp
  · intro p ih
    simpa using ih

end PredicateJson
end ElectricCircuits
