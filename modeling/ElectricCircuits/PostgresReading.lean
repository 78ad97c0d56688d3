import ElectricCircuits.SqlSemantics
import ElectricCircuits.SqlText

/-! What Postgres makes of a WHERE: its text read by the grammar of SQL, its placeholders bound to the values
that go with it, and the condition evaluated in three-valued logic on a row of a table. Strings are compared by
code points, and the backslash is the escape of LIKE. A query that Postgres refuses has no value. -/
namespace ElectricCircuits
open ThreeValued SqlExpr

/-- SQL `LIKE` with its default escape: a `%` stands for any text, a `_` for any one character, and what is behind
a backslash for itself. -/
def EscapedLike : List Char → List Char → Prop
  | [],t => t = []
  | [d],t => if d = '\\' then False else if d = '%' then True else ∃ c, t = [c] ∧ (d = '_' ∨ d = c)
  | d :: e :: p,t =>
    if d = '\\' then ∃ v, t = e :: v ∧ EscapedLike p v
    else if d = '%' then ∃ v, v <:+ t ∧ EscapedLike (e :: p) v
    else ∃ c v, t = c :: v ∧ (d = '_' ∨ d = c) ∧ EscapedLike (e :: p) v

/-- A pattern that ends in its escape character. -/
def danglingEscape : List Char → Bool
  | [] => false
  | [d] => d == '\\'
  | d :: e :: p => if d = '\\' then danglingEscape p else danglingEscape (e :: p)

/-- What the repository does not say of Postgres: how it reads and writes doubles, what the input of one of the engine's
own types reads in a text, and what a pattern gives that ends in its escape (it is refused, or fails where the text
does not get that far). Of a column of any other type a row of the engine has an image only: `stored` is the value
itself and `text` what it is as a text; the type may support an operator or not, reads an operand (`some none` is
NULL), orders its values, in collation `C` or not, and matches them with patterns. -/
structure Postgres : Type 1 where
  float8 : String → Option OrderedFloat
  float8Text : OrderedFloat → String
  input : String → String → Option Value
  dangling : String → String → Option Bool
  Native : Type
  stored : Row → ℕ → Native
  text : String → Native → String
  supports : String → LeafOp → Bool
  reads : Row → String → Operand String → Option (Option Native)
  order : String → Bool → Native → Native → Ordering
  likes : String → Native → Native → Option Bool

/-- The native types whose values are those of the engine. -/
def ColumnType.own : ColumnType → List String
  | .int => ["int2","int4","int8"]
  | .text => ["text","varchar"]
  | .bool => ["bool"]
  | .float => ["float8"]

/-- The native type of a column, where it is known and not one of the engine's own. -/
def PgTable.foreignType (t : PgTable) (idx : ℕ) : Option String :=
  (t.pgTypeAt idx).filter fun type => !decide (type ∈ (t.columnType idx).own)

def Comparator.leafOp : Comparator → LeafOp
  | .eq => .eq
  | .neq => .neq
  | .lt => .lt
  | .lte => .lte
  | .gt => .gt
  | .gte => .gte
  | .like => .like

namespace Postgres
variable (pg : Postgres) (t : PgTable) (row : Row)

open Classical in
/-- A text against a pattern. -/
noncomputable def likeText (c s : String) : Option Bool :=
  if danglingEscape s.toList then pg.dangling c s else some (decide (EscapedLike s.toList c.toList))

/-- Two texts compared. -/
noncomputable def textAnswer (c : String) (op : LeafOp) (s : String) : Option Bool :=
  if op = .like then pg.likeText c s else some (op.holds (compare c s))

/-- `::text` of a value that is not NULL. -/
def textOf : Value → String
  | .null => ""
  | .int i => toString i
  | .text s => s
  | .bool b => toString b
  | .float f => pg.float8Text f

def negate : Value → Option Value
  | .int i => some (.int (-i))
  | .float f => some (.float ⟨f.bits ^^^ BitVec.intMin 64⟩)
  | .null => some .null
  | _ => none

/-- A value as one of a column's type: an integer is also a double. -/
def as (ty : ColumnType) : Value → Option Value
  | .null => some .null
  | .int i => if ty = .int then some (.int i) else if ty = .float then some (.float (.ofInt i)) else none
  | .float f => if ty = .float then some (.float f) else none
  | .bool b => if ty = .bool then some (.bool b) else none
  | .text s => if ty = .text then some (.text s) else none

/-- A numeral as a value of a column's type. -/
def numeralAs (ty : ColumnType) (s : String) : Option Value :=
  match ty with
  | .int => (parseI64 s.toList).map .int
  | .float => (pg.float8 s).map .float
  | _ => none

/-- The cell of a column by its name. -/
def cellOf (name : String) : Option Value := (t.columnIndex name).toOption.map row.cell

/-- An operand without casts as a value of a column's type; a bare name is that of a column, in lower case. -/
def operandAs (ty : ColumnType) : Operand String → Option Value
  | .plain .null [] => some .null
  | .plain (.bool b) [] => as ty (.bool b)
  | .plain (.number s) [] => pg.numeralAs ty s
  | .neg (.number s) => pg.numeralAs ty ("-" ++ s)
  | .plain (.bare s) [] => (cellOf t row (String.ofList (s.toList.map Char.toLower))).bind (as ty)
  | .neg (.bare s) => ((cellOf t row (String.ofList (s.toList.map Char.toLower))).bind negate).bind (as ty)
  | _ => none

/-- `::text` of a column that is not NULL. -/
def columnText (idx : ℕ) : String :=
  match t.foreignType idx with
  | some type => pg.text type (pg.stored row idx)
  | none => pg.textOf (row.cell idx)

/-- A cell, by its text, compared with a text. -/
noncomputable def cellText (cell : Value) (c : String) (op : LeafOp) (s : String) : Option Truth :=
  if cell = .null then some .maybe else (pg.textAnswer c op s).map Truth.ofBool

/-- An operand as a value of a type that is not the engine's own. -/
def nativeOf (type : String) : Operand String → Option (Option pg.Native)
  | .plain .null [] => some none
  | b => pg.reads row type b

/-- What an operator says of two values of such a type. -/
def nativeAnswer (type : String) (collated : Bool) (op : LeafOp) (a b : pg.Native) : Option Bool :=
  if op = .like then pg.likes type a b else some (op.holds (pg.order type collated a b))

/-- A column of such a type compared with an operand. -/
def foreignTruth (type : String) (collated : Bool) (idx : ℕ) (op : LeafOp) (b : Operand String) : Option Truth :=
  if pg.supports type op then
    match pg.nativeOf row type b with
    | none => none
    | some none => some .maybe
    | some (some w) =>
      if row.cell idx = .null then some .maybe
      else (pg.nativeAnswer type collated op (pg.stored row idx) w).map Truth.ofBool
  else none

/-- A text as the input of a named type reads it, for a column of the engine's own types. -/
def inputAs (ty : ColumnType) (type s : String) : Option Value := (pg.input type s).bind (as ty)

/-- A column compared with a text parameter that is cast to a named type. -/
noncomputable def castTruth (collated : Bool) (idx : ℕ) (op : LeafOp) (s type : String) : Option Truth :=
  if type ∈ (t.columnType idx).own then
    if t.columnType idx = .text then pg.cellText (row.cell idx) (pg.textOf (row.cell idx)) op s
    else if op = .like then none
    else (pg.inputAs (t.columnType idx) type s).map (sqlCmp (row.cell idx) op)
  else pg.foreignTruth row type collated idx op (.plain (.param s) [])

/-- A column compared with an operand that has no casts; LIKE compares texts only. -/
noncomputable def inlineTruth (idx : ℕ) (op : LeafOp) (b : Operand String) : Option Truth :=
  match t.foreignType idx with
  | some type => pg.foreignTruth row type false idx op b
  | none =>
    if op = .like ∧ t.columnType idx ≠ .text then none
    else (pg.operandAs t row (t.columnType idx) b).map (sqlCmp (row.cell idx) op)

/-- A column compared with an operand. -/
noncomputable def compareTruth (a : Operand String) (op : LeafOp) (b : Operand String) : Option Truth :=
  match a with
  | .plain (.column name) suffixes =>
    match t.columnIndex name with
    | .error _ => none
    | .ok idx =>
      match suffixes,b with
      | [.text],.plain (.param s) [] => pg.cellText (row.cell idx) (pg.columnText t row idx) op s
      | [],.plain (.param s) [.text,.cast type] => pg.castTruth t row false idx op s type
      | [.collate "C"],.plain (.param s) [.text,.cast type] => pg.castTruth t row true idx op s type
      | [],b => pg.inlineTruth t row idx op b
      | _,_ => none
  | _ => none

/-- The column that an operand is. -/
def columnOf : Operand String → Option Value
  | .plain (.column name) [] => cellOf t row name
  | _ => none

variable (select : String → String → String → Option (Expr String) → Finset Value)

/-- A condition on a row; `select` says which values an inner SELECT has. -/
noncomputable def truth : Expr String → Option Truth
  | .compare a op b => pg.compareTruth t row a (Comparator.leafOp op) b
  | .isNull a negated => (columnOf t row a).map fun cell => Truth.ofBool (decide (cell = .null) != negated)
  | .inSelect a negated project schema table => (columnOf t row a).map fun cell =>
    let v := sqlIn (fun _ => select project schema table none) "" cell
    if negated then v.neg else v
  | .inSelectWhere a negated project schema table w => (columnOf t row a).map fun cell =>
    let v := sqlIn (fun _ => select project schema table (some w)) "" cell
    if negated then v.neg else v
  | .const b => some (Truth.ofBool b)
  | .paren e => truth e
  | .not e => (truth e).map Truth.neg
  | .and e f => do return (← truth e).min (← truth f)
  | .or e f => do return (← truth e).max (← truth f)

/-- The placeholder `$k` is bound to the value that was pushed `k`-th, counted from `start`. -/
def bound (start : ℕ) (params : List String) (k : ℕ) : Option String :=
  if start ≤ k then params[k-start]? else none

/-- The text, with its parameters, is TRUE on the row. -/
def IsTrue (start : ℕ) (text : String) (params : List String) : Prop :=
  ((read text.toList).bind (Expr.bind (bound start params))).bind (pg.truth t row select) = some .yes

end Postgres
end ElectricCircuits
