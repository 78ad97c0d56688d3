import ElectricCircuits.Aggregate
import ElectricCircuits.CanonicalSound

/-! The parser of WHERE clauses over their tokens, and the grammar that it is written for. -/
namespace ElectricCircuits
namespace WhereSql
open ThreeValued

inductive Tok where
  | ident (s : String)
  | str (s : String)
  | num (s : String)
  | op (s : String)
  | lparen
  | rparen
  | comma
  | and
  | or
  | not
  | like
  | between
  | in_
  | select
  | from_
  | where_
  | true
  | false
  | is
  | null
  deriving DecidableEq

/-- What the parser bails with; `fuel` stands for no message of the source. -/
inductive WhereError where
  | expected (t : Tok) (got : Option Tok)
  | identifier (got : Option Tok)
  | literal (got : Option Tok)
  | constantOperator
  | notBeforeIs
  | operator (op : String)
  | afterColumn (col : String) (got : Option Tok)
  | unknownColumn (message : String)
  | qualifiedTable (raw : String)
  | tableReference (raw : String)
  | number (n : String)
  | range (n : String)
  | trailing (rest : List Tok)
  | fuel
  deriving DecidableEq

/-- `TableRef::parse` of a name without a dot. -/
def tableRef (raw : String) : Except WhereError String :=
  let s := String.ofList (trim raw.toList)
  if s = "" ∨ '"' ∈ s.toList ∨ '*' ∈ s.toList then .error (.tableReference raw)
  else .ok ("public." ++ s)

/-- The table of a subquery; a dot is part of a quoted name. -/
def innerTable (raw : String) : Except WhereError String :=
  if '.' ∈ raw.toList then .error (.qualifiedTable raw) else tableRef raw

variable (parseF64 : String → Option OrderedFloat)

def numLiteral (n : String) : Except WhereError Literal :=
  let integer := if n.toList.any fun c => c ∈ ['.','e','E'] then none else parseI64 n.toList
  match integer with
  | some i => .ok ⟨.int i,Json.finite_int i⟩
  | none =>
    match parseF64 n with
    | none => .error (.number n)
    | some f => if h : f.isFinite = Bool.true then .ok ⟨.float f,h⟩ else .error (.range n)

/-- The literal that a token is. -/
def literal : Tok → Except WhereError Literal
  | .str s => .ok ⟨.string s,rfl⟩
  | .true => .ok ⟨.bool Bool.true,rfl⟩
  | .false => .ok ⟨.bool Bool.false,rfl⟩
  | .num n => numLiteral parseF64 n
  | t => .error (.literal (some t))

def parseLiteral : List Tok → Except WhereError (Literal × List Tok)
  | [] => .error (.literal none)
  | t :: toks => do return (← literal parseF64 t,toks)

def parseIdent : List Tok → Except WhereError (String × List Tok)
  | .ident s :: toks => .ok (s,toks)
  | toks => .error (.identifier toks.head?)

def eat (t : Tok) : List Tok → Except WhereError (List Tok)
  | got :: toks => if got = t then .ok toks else .error (.expected t (some got))
  | [] => .error (.expected t none)

/-- An optional NOT. -/
def eatNot : List Tok → Bool × List Tok
  | .not :: toks => (Bool.true,toks)
  | toks => (Bool.false,toks)

/-- The order of two constants: numbers as doubles. -/
def constOrd : Json → Json → Option Ordering
  | .string a,.string b => some (compare a b)
  | .bool a,.bool b => some (compare a b)
  | a,b =>
    match a.asF64,b.asF64 with
    | some x,some y => some (compare x.key y.key)
    | _,_ => none

def evalConst (left : Json) (op : String) (right : Json) : Bool :=
  let ord := constOrd left right
  match op with
  | "=" => left.scalarEq right
  | "<>" => !left.scalarEq right
  | "!=" => !left.scalarEq right
  | "<" => ord.any Ordering.isLT
  | "<=" => ord.any Ordering.isLE
  | ">" => ord.any Ordering.isGT
  | ">=" => ord.any Ordering.isGE
  | _ => Bool.false

/-- The operators of a comparison with a column. -/
def leafOp : String → Option LeafOp
  | "=" => some .eq
  | "<>" => some .neq
  | "!=" => some .neq
  | "<" => some .lt
  | "<=" => some .lte
  | ">" => some .gt
  | ">=" => some .gte
  | _ => none

/-- A comparison of constants, decided while it is parsed. -/
def parseConst (toks : List Tok) : Except WhereError (PredicateJson × List Tok) := do
  let (left,toks) ← parseLiteral parseF64 toks
  match toks with
  | .op op :: toks => do
    let (right,toks) ← parseLiteral parseF64 toks
    return (if evalConst left.json op right.json then .and [] else .or [],toks)
  | _ => .error .constantOperator

/-- The column of a null test has to exist when the schema is there to say so. -/
def checkColumn (schema : Option TableSchema) (col : String) : Except WhereError Unit :=
  match schema with
  | none => .ok ()
  | some ts =>
    match ts.columnIndex col with
    | .ok _ => .ok ()
    | .error e => .error (.unknownColumn e)

def parseIs (schema : Option TableSchema) (col : String) (negated : Bool) (toks : List Tok) :
    Except WhereError (PredicateJson × List Tok) := do
  let (isNot,toks) := eatNot toks
  let toks ← eat .null toks
  if negated then .error .notBeforeIs
  else do
    checkColumn schema col
    return (.isNull col !isNot,toks)

def parseComparison (col op : String) (toks : List Tok) : Except WhereError (PredicateJson × List Tok) := do
  let (value,toks) ← parseLiteral parseF64 toks
  match leafOp op with
  | some op => return (.leaf col op value,toks)
  | none => .error (.operator op)

def parseLike (col : String) (toks : List Tok) : Except WhereError (PredicateJson × List Tok) := do
  let (value,toks) ← parseLiteral parseF64 toks
  return (.leaf col .like value,toks)

def parseBetween (col : String) (toks : List Tok) : Except WhereError (PredicateJson × List Tok) := do
  let (lo,toks) ← parseLiteral parseF64 toks
  let toks ← eat .and toks
  let (hi,toks) ← parseLiteral parseF64 toks
  return (.and [.leaf col .gte lo,.leaf col .lte hi],toks)

/-- The loop over the commas of a list. -/
def literalTail : List Tok → Except WhereError (List Literal × List Tok)
  | .comma :: t :: toks => do
    let v ← literal parseF64 t
    let (vs,toks) ← literalTail toks
    return (v :: vs,toks)
  | [.comma] => .error (.literal none)
  | toks => .ok ([],toks)

def parseList (col : String) (toks : List Tok) : Except WhereError (PredicateJson × List Tok) := do
  let (v,toks) ← parseLiteral parseF64 toks
  let (vs,toks) ← literalTail parseF64 toks
  let toks ← eat .rparen toks
  return (.or ((v :: vs).map (.leaf col .eq)),toks)

def negate (negated : Bool) (r : PredicateJson × List Tok) : PredicateJson × List Tok :=
  if negated then (.not r.1,r.2) else r

def joined (join : List PredicateJson → PredicateJson) (p : PredicateJson) : List PredicateJson → PredicateJson
  | [] => p
  | ps => join (p :: ps)

def isConstant : List Tok → Bool
  | .str _ :: _ => Bool.true
  | .num _ :: _ => Bool.true
  | .true :: _ => Bool.true
  | .false :: _ => Bool.true
  | _ => Bool.false

variable (schema : Option TableSchema)

mutual

/-- or := and ( OR and )* -/
def parseOr : ℕ → List Tok → Except WhereError (PredicateJson × List Tok)
  | 0,_ => .error .fuel
  | n+1,toks => do
    let (p,toks) ← parseAnd n toks
    let (ps,toks) ← orTail n toks
    return (joined .or p ps,toks)

def orTail : ℕ → List Tok → Except WhereError (List PredicateJson × List Tok)
  | 0,_ => .error .fuel
  | n+1,.or :: toks => do
    let (p,toks) ← parseAnd n toks
    let (ps,toks) ← orTail n toks
    return (p :: ps,toks)
  | _+1,toks => .ok ([],toks)

/-- and := not ( AND not )* -/
def parseAnd : ℕ → List Tok → Except WhereError (PredicateJson × List Tok)
  | 0,_ => .error .fuel
  | n+1,toks => do
    let (p,toks) ← parseNot n toks
    let (ps,toks) ← andTail n toks
    return (joined .and p ps,toks)

def andTail : ℕ → List Tok → Except WhereError (List PredicateJson × List Tok)
  | 0,_ => .error .fuel
  | n+1,.and :: toks => do
    let (p,toks) ← parseNot n toks
    let (ps,toks) ← andTail n toks
    return (p :: ps,toks)
  | _+1,toks => .ok ([],toks)

/-- not := NOT not | primary -/
def parseNot : ℕ → List Tok → Except WhereError (PredicateJson × List Tok)
  | 0,_ => .error .fuel
  | n+1,.not :: toks => do
    let (p,toks) ← parseNot n toks
    return (.not p,toks)
  | n+1,toks => parsePrimary n toks

/-- primary := '(' or ')' | predicate -/
def parsePrimary : ℕ → List Tok → Except WhereError (PredicateJson × List Tok)
  | 0,_ => .error .fuel
  | n+1,.lparen :: toks => do
    let (p,toks) ← parseOr n toks
    let toks ← eat .rparen toks
    return (p,toks)
  | n+1,toks => parsePredicate n toks

/-- predicate := col [NOT] (op lit | LIKE str | BETWEEN a AND b | IN (...)) | lit op lit -/
def parsePredicate : ℕ → List Tok → Except WhereError (PredicateJson × List Tok)
  | 0,_ => .error .fuel
  | n+1,toks =>
    if isConstant toks then parseConst parseF64 toks
    else do
      let (col,toks) ← parseIdent toks
      let (negated,toks) := eatNot toks
      parseColumn n col negated toks

/-- What stands after the column and its NOT. -/
def parseColumn : ℕ → String → Bool → List Tok → Except WhereError (PredicateJson × List Tok)
  | 0,_,_,_ => .error .fuel
  | _+1,col,negated,.is :: toks => parseIs schema col negated toks
  | _+1,col,negated,.op op :: toks => (parseComparison parseF64 col op toks).map (negate negated)
  | _+1,col,negated,.like :: toks => (parseLike parseF64 col toks).map (negate negated)
  | _+1,col,negated,.between :: toks => (parseBetween parseF64 col toks).map (negate negated)
  | n+1,col,negated,.in_ :: toks => do
    let toks ← eat .lparen toks
    if toks.head? = some .select then parseSelect n col negated toks.tail
    else (parseList parseF64 col toks).map (negate negated)
  | _+1,col,_,toks => .error (.afterColumn col toks.head?)

/-- The subquery of an IN, after its SELECT. -/
def parseSelect : ℕ → String → Bool → List Tok → Except WhereError (PredicateJson × List Tok)
  | 0,_,_,_ => .error .fuel
  | n+1,col,negated,toks => do
    let (project,toks) ← parseIdent toks
    let toks ← eat .from_ toks
    let (raw,toks) ← parseIdent toks
    let table ← innerTable raw
    let (w,toks) ← parseWhere n toks
    let toks ← eat .rparen toks
    return (.inSubquery col negated table project w,toks)

/-- The optional WHERE of a subquery. -/
def parseWhere : ℕ → List Tok → Except WhereError (Option PredicateJson × List Tok)
  | 0,_ => .error .fuel
  | n+1,.where_ :: toks => do
    let (w,toks) ← parseOr n toks
    return (some w,toks)
  | _+1,toks => .ok (none,toks)

end

/-- The whole clause; every call of the parser has fuel for what is left of it. -/
def parseTokens (toks : List Tok) : Except WhereError PredicateJson := do
  let (p,rest) ← parseOr parseF64 schema (8*toks.length+8) toks
  if rest = [] then return p else .error (.trailing rest)

end WhereSql
end ElectricCircuits
