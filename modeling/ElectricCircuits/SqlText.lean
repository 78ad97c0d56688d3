import ElectricCircuits.Lib.SqlReading
import ElectricCircuits.PredicateJson

/-! A predicate as the text of a WHERE and the values of its placeholders: from the compiled predicate, and
from the predicate of a request, whose subqueries become inner SELECTs. -/
namespace ElectricCircuits
open SqlExpr

/-- `quote_ident`. -/
def quoteIdent (name : String) : String :=
  String.ofList ('"' :: (name.toList.flatMap fun c => if c = '"' then ['"','"'] else [c]) ++ ['"'])

/-- `TableRef::schema` and `TableRef::name`: what stands before and behind the one dot. -/
def tableSchemaPart (table : String) : String := String.ofList (table.toList.takeWhile (· ≠ '.'))
def tableNamePart (table : String) : String := String.ofList (table.toList.dropWhile (· ≠ '.')).tail

/-- `TableRef::quote_qualified`. -/
def quoteQualified (table : String) : String :=
  quoteIdent (tableSchemaPart table) ++ "." ++ quoteIdent (tableNamePart table)

/-- A table whose columns have a native Postgres type, where it is known. -/
structure PgTable extends TableSchema where
  pgTypes : List (Option String)

namespace PgTable
variable (t : PgTable)

def pgTypeAt (col : ℕ) : Option String := (t.pgTypes[col]?).join

/-- `pg_type_of`. -/
def pgTypeOf (col : String) : Option String := ((t.columns.map (·.1)).idxOf? col).bind t.pgTypeAt

def isCollatableText (col : ℕ) : Bool :=
  if (t.columns[col]?).map (·.2) ≠ some .text then false
  else
    match t.pgTypeAt col with
    | none => false
    | some ty => ty ∈ ["text","varchar","bpchar","char","name","citext"]

end PgTable

/-- A text parameter against a column, cast to the column's native type where this is known. -/
def textParamCmp (name op : String) (n : ℕ) (pgType : Option String) : String :=
  match pgType with
  | some ty => name ++ " " ++ op ++ " $" ++ toString n ++ "::text::" ++ quoteIdent ty
  | none => name ++ "::text " ++ op ++ " $" ++ toString n

def opSql : LeafOp → String
  | .eq => "="
  | .neq => "<>"
  | .lt => "<"
  | .lte => "<="
  | .gt => ">"
  | .gte => ">="
  | .like => "LIKE"

def LeafOp.isOrdering (op : LeafOp) : Bool := op ∈ [.lt,.lte,.gt,.gte]

def boolSql (b : Bool) : String := if b then "true" else "false"

mutual

/-- `build`; the values of the placeholders are pushed behind `params`. Without its column, and on a subquery,
it panics. -/
def build (t : PgTable) : CompiledPredicate → List String → Except String (String × List String)
  | .matchAll,params => .ok ("TRUE",params)
  | .cmp col op value,params =>
    match t.columns[col]? with
    | none => .error s!"index out of bounds: the len is {t.columns.length} but the index is {col}"
    | some c =>
      let name := quoteIdent c.1
      let o := opSql op
      match value with
      | .null => .ok (name ++ " " ++ o ++ " NULL",params)
      | .int i => .ok (name ++ " " ++ o ++ " " ++ toString i,params)
      | .float f => .ok (name ++ " " ++ o ++ " " ++ f.toText,params)
      | .bool b => .ok (name ++ " " ++ o ++ " " ++ boolSql b,params)
      | .text s =>
        let lhs := if op.isOrdering && t.isCollatableText col then name ++ " collate " ++ quoteIdent "C" else name
        .ok (textParamCmp lhs o (params.length+1) (t.pgTypeAt col),params ++ [s])
  | .isNull col b,params =>
    match t.columns[col]? with
    | none => .error s!"index out of bounds: the len is {t.columns.length} but the index is {col}"
    | some c => .ok (quoteIdent c.1 ++ " IS " ++ (if b then "" else "NOT ") ++ "NULL",params)
  | .and ps,params =>
    if ps.isEmpty then .ok ("TRUE",params)
    else do
      let (parts,params) ← buildAll t ps params
      return ("(" ++ " AND ".intercalate parts ++ ")",params)
  | .or ps,params =>
    if ps.isEmpty then .ok ("FALSE",params)
    else do
      let (parts,params) ← buildAll t ps params
      return ("(" ++ " OR ".intercalate parts ++ ")",params)
  | .not p,params => do
    let (text,params) ← build t p params
    return ("(NOT " ++ text ++ ")",params)
  | .inSubquery _ _ _,_ => .error "subquery SQL must be built from PredicateJson, not the compiled predicate"

def buildAll (t : PgTable) : List CompiledPredicate → List String → Except String (List String × List String)
  | [],params => .ok ([],params)
  | p :: ps,params => do
    let (text,params) ← build t p params
    let (parts,params) ← buildAll t ps params
    return (text :: parts,params)

end

/-- `predicate_to_sql`; there is no WHERE for the predicate that matches every row. -/
def predicateToSql (p : CompiledPredicate) (t : PgTable) : Except String (Option (String × List String)) :=
  match p with
  | .matchAll => .ok none
  | p => (build t p []).map some

section
variable (ft : FloatText) (start : ℕ) (schemas : String → Option PgTable)

mutual

/-- `build_json`; the columns are those of `table`, in a subquery those of the inner table. -/
def buildJson (table : String) : PredicateJson → List String → String × List String
  | .leaf col op value,params =>
    let name := quoteIdent col
    let o := opSql op
    let pgType := (schemas table).bind fun t => t.pgTypeOf col
    let collatable := ((schemas table).bind fun t =>
      ((t.columns.map (·.1)).idxOf? col).map t.isCollatableText).getD false
    let lhs := if op.isOrdering && collatable then name ++ " collate " ++ quoteIdent "C" else name
    match value.json with
    | .null => (name ++ " " ++ o ++ " NULL",params)
    | .bool b => (name ++ " " ++ o ++ " " ++ boolSql b,params)
    | .int i => (name ++ " " ++ o ++ " " ++ toString i,params)
    | .float f => (name ++ " " ++ o ++ " " ++ String.ofList (ft.text f),params)
    | .string s => (textParamCmp lhs o (start+(params ++ [s]).length-1) pgType,params ++ [s])
    | other =>
      let s := String.ofList (other.chars ft)
      (textParamCmp lhs o (start+(params ++ [s]).length-1) pgType,params ++ [s])
  | .isNull col b,params => (quoteIdent col ++ " IS " ++ (if b then "" else "NOT ") ++ "NULL",params)
  | .and ps,params =>
    if ps.isEmpty then ("TRUE",params)
    else
      let (parts,params) := buildJsonAll table ps params
      ("(" ++ " AND ".intercalate parts ++ ")",params)
  | .or ps,params =>
    if ps.isEmpty then ("FALSE",params)
    else
      let (parts,params) := buildJsonAll table ps params
      ("(" ++ " OR ".intercalate parts ++ ")",params)
  | .not p,params =>
    let (text,params) := buildJson table p params
    ("(NOT " ++ text ++ ")",params)
  | .inSubquery col negated inner project where_,params =>
    let (text,params) := buildInner inner where_ params
    (quoteIdent col ++ " " ++ (if negated then "NOT IN" else "IN") ++ " (SELECT " ++ quoteIdent project ++ " FROM " ++
      quoteQualified inner ++ text ++ ")",params)

def buildJsonAll (table : String) : List PredicateJson → List String → List String × List String
  | [],params => ([],params)
  | p :: ps,params =>
    let (text,params) := buildJson table p params
    let (parts,params) := buildJsonAll table ps params
    (text :: parts,params)

/-- The WHERE of an inner SELECT, if it has one. -/
def buildInner (inner : String) : Option PredicateJson → List String → String × List String
  | none,params => ("",params)
  | some w,params =>
    let (text,params) := buildJson inner w params
    (" WHERE " ++ text,params)

end

/-- `predicate_json_to_sql`. -/
def predicateJsonToSql (p : PredicateJson) (table : String) : String × List String :=
  buildJson ft start schemas table p []

end
end ElectricCircuits
