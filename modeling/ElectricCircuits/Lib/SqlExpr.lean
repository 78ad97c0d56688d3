import Mathlib.Data.List.Basic

/-! Conditions of SQL as text: their tokens, their grammar by precedence, and the text of a condition,
which is read back as it was. Identifiers are quoted, and the placeholders of a text are numbered. -/
namespace SqlExpr

inductive Keyword where
  | and
  | or
  | not
  | is
  | null
  | in_
  | select
  | from_
  | where_
  | like
  | true
  | false
  | collate
  deriving DecidableEq

inductive Tok where
  | quoted (s : String)
  | bare (s : String)
  | kw (k : Keyword)
  | param (k : ℕ)
  | number (s : String)
  | op (s : String)
  | cast
  | lparen
  | rparen
  | dot
  deriving DecidableEq

/-- The rest of a quoted identifier up to its closing quote; a quote is doubled inside. -/
def scanQuoted : List Char → Option (List Char × List Char)
  | [] => none
  | [c] => if c = '"' then some ([],[]) else none
  | c :: d :: cs =>
    if c = '"' then
      if d = '"' then (scanQuoted cs).map fun r => ('"' :: r.1,r.2) else some ([],d :: cs)
    else (scanQuoted (d :: cs)).map fun r => (c :: r.1,r.2)

/-- An exponent, if there are digits in it. -/
def exponent : List Char → List Char × List Char
  | [] => ([],[])
  | c :: cs =>
    let signs := cs.head?.toList.filter fun s => s = '+' ∨ s = '-'
    let rest := cs.drop signs.length
    if (c = 'e' ∨ c = 'E') ∧ rest.takeWhile Char.isDigit ≠ [] then
      (c :: signs ++ rest.takeWhile Char.isDigit,rest.dropWhile Char.isDigit)
    else ([],c :: cs)

/-- Digits behind a point, if there is one. -/
def fraction : List Char → List Char × List Char
  | [] => ([],[])
  | c :: cs =>
    if c = '.' then (c :: cs.takeWhile Char.isDigit,cs.dropWhile Char.isDigit) else ([],c :: cs)

/-- The text of a number without a sign, and what is left after it. -/
def numeral (cs : List Char) : List Char × List Char :=
  let f := fraction (cs.dropWhile Char.isDigit)
  let e := exponent f.2
  (cs.takeWhile Char.isDigit ++ f.1 ++ e.1,e.2)

def wordStart (c : Char) : Bool := c.isAlpha || c == '_'
def wordChar (c : Char) : Bool := wordStart c || c.isDigit
def opChar (c : Char) : Bool := c ∈ ['+','-','*','/','<','>','=','~','!','@','#','%','^','&','|','?']

/-- Keywords are written in either case. -/
def word (w : List Char) : Tok :=
  match String.ofList (w.map Char.toLower) with
  | "and" => .kw .and
  | "or" => .kw .or
  | "not" => .kw .not
  | "is" => .kw .is
  | "null" => .kw .null
  | "in" => .kw .in_
  | "select" => .kw .select
  | "from" => .kw .from_
  | "where" => .kw .where_
  | "like" => .kw .like
  | "true" => .kw .true
  | "false" => .kw .false
  | "collate" => .kw .collate
  | _ => .bare (String.ofList w)

/-- One token and what is left after it; a space has none. -/
def lexOne : List Char → Option (Option Tok × List Char)
  | [] => none
  | c :: cs =>
    if c = ' ' then some (none,cs)
    else if c = '"' then (scanQuoted cs).map fun r => (some (.quoted (String.ofList r.1)),r.2)
    else if c = '(' then some (some .lparen,cs)
    else if c = ')' then some (some .rparen,cs)
    else if c = '.' then some (some .dot,cs)
    else if c = ':' then if cs.head? = some ':' then some (some .cast,cs.tail) else none
    else if c = '$' then
      if cs.takeWhile Char.isDigit = [] then none
      else some (some (.param (Nat.ofDigitChars 10 (cs.takeWhile Char.isDigit) 0)),cs.dropWhile Char.isDigit)
    else if c.isDigit then some (some (.number (String.ofList (numeral (c :: cs)).1)),(numeral (c :: cs)).2)
    else if wordStart c then some (some (word ((c :: cs).takeWhile wordChar)),(c :: cs).dropWhile wordChar)
    else if opChar c then
      some (some (.op (String.ofList ((c :: cs).takeWhile opChar))),(c :: cs).dropWhile opChar)
    else none

/-- The loop over the text; every turn takes a character at least. -/
def lex : ℕ → List Char → Option (List Tok)
  | _,[] => some []
  | 0,_ => none
  | n+1,cs => do
    let (t,rest) ← lexOne cs
    return t.toList ++ (← lex n rest)

/-- Scalars, with what stands for a placeholder. -/
inductive Atom (π : Type) where
  | column (name : String)
  | bare (name : String)
  | param (p : π)
  | number (s : String)
  | bool (b : Bool)
  | null
  deriving DecidableEq

inductive Suffix where
  | text
  | cast (type : String)
  | collate (name : String)
  deriving DecidableEq

/-- One side of a comparison. -/
inductive Operand (π : Type) where
  | neg (a : Atom π)
  | plain (a : Atom π) (suffixes : List Suffix)
  deriving DecidableEq

inductive Comparator where
  | eq
  | neq
  | lt
  | lte
  | gt
  | gte
  | like
  deriving DecidableEq

inductive Expr (π : Type) where
  | compare (a : Operand π) (op : Comparator) (b : Operand π)
  | isNull (a : Operand π) (negated : Bool)
  | inSelect (a : Operand π) (negated : Bool) (project schema table : String)
  | inSelectWhere (a : Operand π) (negated : Bool) (project schema table : String) (w : Expr π)
  | const (b : Bool)
  | paren (e : Expr π)
  | not (e : Expr π)
  | and (e f : Expr π)
  | or (e f : Expr π)
  deriving DecidableEq

section

def atom : List Tok → Option (Atom ℕ × List Tok)
  | .quoted s :: ts => some (.column s,ts)
  | .bare s :: ts => some (.bare s,ts)
  | .param k :: ts => some (.param k,ts)
  | .number s :: ts => some (.number s,ts)
  | .kw .true :: ts => some (.bool true,ts)
  | .kw .false :: ts => some (.bool false,ts)
  | .kw .null :: ts => some (.null,ts)
  | _ => none

/-- The casts and collations behind a scalar. -/
def suffixes : List Tok → List Suffix × List Tok
  | .cast :: .quoted type :: ts => (.cast type :: (suffixes ts).1,(suffixes ts).2)
  | .cast :: .bare s :: ts =>
    if s = "text" then (.text :: (suffixes ts).1,(suffixes ts).2) else ([],.cast :: .bare s :: ts)
  | .kw .collate :: .quoted name :: ts => (.collate name :: (suffixes ts).1,(suffixes ts).2)
  | ts => ([],ts)

def operand : List Tok → Option (Operand ℕ × List Tok)
  | .op s :: ts => if s = "-" then (atom ts).map fun r => (.neg r.1,r.2) else none
  | ts => (atom ts).map fun r => (.plain r.1 (suffixes r.2).1,(suffixes r.2).2)

def Comparator.ofOp : String → Option Comparator
  | "=" => some .eq
  | "<>" => some .neq
  | "<" => some .lt
  | "<=" => some .lte
  | ">" => some .gt
  | ">=" => some .gte
  | _ => none

/-- What stands behind `IN`, from the SELECT on; `condition` reads its WHERE. -/
def inTail (condition : List Tok → Option (Expr ℕ × List Tok)) (a : Operand ℕ) (negated : Bool) :
    List Tok → Option (Expr ℕ × List Tok)
  | .lparen :: .kw .select :: .quoted project :: .kw .from_ :: .quoted schema :: .dot :: .quoted table :: ts =>
    match ts with
    | .rparen :: ts => some (.inSelect a negated project schema table,ts)
    | .kw .where_ :: ts =>
      match condition ts with
      | some (w,.rparen :: ts) => some (.inSelectWhere a negated project schema table w,ts)
      | _ => none
    | _ => none
  | _ => none

/-- What stands behind the first operand of a test; a truth value may stand alone. -/
def testTail (condition : List Tok → Option (Expr ℕ × List Tok)) (a : Operand ℕ) :
    List Tok → Option (Expr ℕ × List Tok)
  | .op s :: ts => do
    let op ← Comparator.ofOp s
    let (b,ts) ← operand ts
    return (.compare a op b,ts)
  | .kw .like :: ts => do
    let (b,ts) ← operand ts
    return (.compare a .like b,ts)
  | .kw .is :: .kw .null :: ts => some (.isNull a false,ts)
  | .kw .is :: .kw .not :: .kw .null :: ts => some (.isNull a true,ts)
  | .kw .in_ :: ts => inTail condition a false ts
  | .kw .not :: .kw .in_ :: ts => inTail condition a true ts
  | ts =>
    match a with
    | .plain (.bool b) [] => some (.const b,ts)
    | _ => none

/-- The levels of precedence, the loosest first. -/
inductive Level where
  | disjunction
  | conjunction
  | negation
  | test
  deriving DecidableEq

/-- A condition at a level, and what is left after it: OR binds looser than AND, this looser than NOT, and NOT
looser than every test. -/
def condition : ℕ → Level → List Tok → Option (Expr ℕ × List Tok)
  | 0,_,_ => none
  | n+1,.disjunction,ts => do
    let (e,ts) ← condition n .conjunction ts
    match ts with
    | .kw .or :: ts => do
      let (f,ts) ← condition n .disjunction ts
      return (.or e f,ts)
    | ts => return (e,ts)
  | n+1,.conjunction,ts => do
    let (e,ts) ← condition n .negation ts
    match ts with
    | .kw .and :: ts => do
      let (f,ts) ← condition n .conjunction ts
      return (.and e f,ts)
    | ts => return (e,ts)
  | n+1,.negation,.kw .not :: ts => do
    let (e,ts) ← condition n .negation ts
    return (.not e,ts)
  | n+1,.negation,ts => condition n .test ts
  | n+1,.test,.lparen :: ts =>
    match condition n .disjunction ts with
    | some (e,.rparen :: ts) => some (.paren e,ts)
    | _ => none
  | n+1,.test,ts => do
    let (a,ts) ← operand ts
    testTail (condition n .disjunction) a ts

/-- The condition that a text is, all of it. -/
def read (cs : List Char) : Option (Expr ℕ) := do
  let ts ← lex cs.length cs
  match ← condition (4*ts.length+4) .disjunction ts with
  | (e,[]) => return e
  | _ => none

end

section

/-- An identifier between quotes. -/
def quotedText (s : String) : List Char :=
  '"' :: (s.toList.flatMap fun c => if c = '"' then ['"','"'] else [c]) ++ ['"']

def Atom.text : Atom ℕ → List Char
  | .column s => quotedText s
  | .bare s => s.toList
  | .param k => '$' :: Nat.toDigits 10 k
  | .number s => s.toList
  | .bool true => ['t','r','u','e']
  | .bool false => ['f','a','l','s','e']
  | .null => ['N','U','L','L']

def Suffix.chars : Suffix → List Char
  | .text => [':',':','t','e','x','t']
  | .cast type => ':' :: ':' :: quotedText type
  | .collate name => [' ','c','o','l','l','a','t','e',' '] ++ quotedText name

def Operand.text : Operand ℕ → List Char
  | .neg a => '-' :: a.text
  | .plain a suffixes => a.text ++ suffixes.flatMap Suffix.chars

def Comparator.text : Comparator → List Char
  | .eq => ['=']
  | .neq => ['<','>']
  | .lt => ['<']
  | .lte => ['<','=']
  | .gt => ['>']
  | .gte => ['>','=']
  | .like => ['L','I','K','E']

/-- `SELECT project FROM schema.table`, behind its `IN`. -/
def selectText (negated : Bool) (project schema table : String) : List Char :=
  (if negated then [' ','N','O','T'] else []) ++ [' ','I','N',' ','(','S','E','L','E','C','T',' '] ++
    quotedText project ++ [' ','F','R','O','M',' '] ++ quotedText schema ++ '.' :: quotedText table

/-- The text of a condition; it has no parentheses but its own. -/
def Expr.text : Expr ℕ → List Char
  | .compare a op b => a.text ++ ' ' :: op.text ++ ' ' :: b.text
  | .isNull a negated =>
    a.text ++ [' ','I','S',' '] ++ (if negated then ['N','O','T',' '] else []) ++ ['N','U','L','L']
  | .inSelect a negated project schema table => a.text ++ selectText negated project schema table ++ [')']
  | .inSelectWhere a negated project schema table w =>
    a.text ++ selectText negated project schema table ++ [' ','W','H','E','R','E',' '] ++ w.text ++ [')']
  | .const true => ['T','R','U','E']
  | .const false => ['F','A','L','S','E']
  | .paren e => '(' :: e.text ++ [')']
  | .not e => ['N','O','T',' '] ++ e.text
  | .and e f => e.text ++ [' ','A','N','D',' '] ++ f.text
  | .or e f => e.text ++ [' ','O','R',' '] ++ f.text

def Atom.tok : Atom ℕ → Tok
  | .column s => .quoted s
  | .bare s => .bare s
  | .param k => .param k
  | .number s => .number s
  | .bool true => .kw .true
  | .bool false => .kw .false
  | .null => .kw .null

def Suffix.toks : Suffix → List Tok
  | .text => [.cast,.bare "text"]
  | .cast type => [.cast,.quoted type]
  | .collate name => [.kw .collate,.quoted name]

def Operand.toks : Operand ℕ → List Tok
  | .neg a => [.op "-",a.tok]
  | .plain a suffixes => a.tok :: suffixes.flatMap Suffix.toks

def Comparator.tok : Comparator → Tok
  | .eq => .op "="
  | .neq => .op "<>"
  | .lt => .op "<"
  | .lte => .op "<="
  | .gt => .op ">"
  | .gte => .op ">="
  | .like => .kw .like

def selectToks (negated : Bool) (project schema table : String) : List Tok :=
  (if negated then [.kw .not] else []) ++
    [.kw .in_,.lparen,.kw .select,.quoted project,.kw .from_,.quoted schema,.dot,.quoted table]

def Expr.toks : Expr ℕ → List Tok
  | .compare a op b => a.toks ++ op.tok :: b.toks
  | .isNull a negated => a.toks ++ [.kw .is] ++ (if negated then [.kw .not] else []) ++ [.kw .null]
  | .inSelect a negated project schema table => a.toks ++ selectToks negated project schema table ++ [.rparen]
  | .inSelectWhere a negated project schema table w =>
    a.toks ++ selectToks negated project schema table ++ [.kw .where_] ++ w.toks ++ [.rparen]
  | .const true => [.kw .true]
  | .const false => [.kw .false]
  | .paren e => .lparen :: e.toks ++ [.rparen]
  | .not e => .kw .not :: e.toks
  | .and e f => e.toks ++ .kw .and :: f.toks
  | .or e f => e.toks ++ .kw .or :: f.toks

end

/-- A bare name is one word and no keyword; a number is one numeral. -/
def Atom.Ok {π : Type} : Atom π → Prop
  | .bare s => s.toList.head?.any wordStart = true ∧ (∀ c ∈ s.toList, wordChar c = true) ∧ word s.toList = .bare s
  | .number s => s.toList.head?.any Char.isDigit = true ∧ numeral s.toList = (s.toList,[])
  | _ => True

def Operand.Ok {π : Type} : Operand π → Prop
  | .neg a => a.Ok
  | .plain a _ => a.Ok

lemma Atom.ok_bare (π : Type) {s : String} (hhead : s.toList.head?.any wordStart = true)
    (hall : s.toList.all wordChar = true) (hword : word s.toList = .bare s) : (Atom.bare s : Atom π).Ok :=
  ⟨hhead,List.all_eq_true.mp hall,hword⟩

/-- A condition that needs no more parentheses than it has at a level. -/
inductive At {π : Type} : Level → Expr π → Prop where
  | or {e f : Expr π} (he : At .conjunction e) (hf : At .disjunction f) : At .disjunction (.or e f)
  | ofConjunction {e : Expr π} (h : At .conjunction e) : At .disjunction e
  | and {e f : Expr π} (he : At .negation e) (hf : At .conjunction f) : At .conjunction (.and e f)
  | ofNegation {e : Expr π} (h : At .negation e) : At .conjunction e
  | not {e : Expr π} (h : At .negation e) : At .negation (.not e)
  | ofTest {e : Expr π} (h : At .test e) : At .negation e
  | paren {e : Expr π} (h : At .disjunction e) : At .test (.paren e)
  | compare {a b : Operand π} (op : Comparator) (ha : a.Ok) (hb : b.Ok) : At .test (.compare a op b)
  | isNull {a : Operand π} (negated : Bool) (ha : a.Ok) : At .test (.isNull a negated)
  | inSelect {a : Operand π} (negated : Bool) (project schema table : String) (ha : a.Ok) :
    At .test (.inSelect a negated project schema table)
  | inSelectWhere {a : Operand π} {w : Expr π} (negated : Bool) (project schema table : String) (ha : a.Ok)
    (hw : At .disjunction w) : At .test (.inSelectWhere a negated project schema table w)
  | const (b : Bool) : At .test (.const b)

/-- The values of a condition that go into parameters, in the order of its text. -/
def Atom.params : Atom String → List String
  | .param s => [s]
  | _ => []

def Operand.params : Operand String → List String
  | .neg a => a.params
  | .plain a _ => a.params

def Expr.params : Expr String → List String
  | .compare a _ b => a.params ++ b.params
  | .isNull a _ => a.params
  | .inSelect a _ _ _ _ => a.params
  | .inSelectWhere a _ _ _ _ w => a.params ++ w.params
  | .const _ => []
  | .paren e => e.params
  | .not e => e.params
  | .and e f => e.params ++ f.params
  | .or e f => e.params ++ f.params

/-- Placeholders for the values, numbered on from `k`. -/
def Atom.numbered (k : ℕ) : Atom String → Atom ℕ
  | .param _ => .param k
  | .column s => .column s
  | .bare s => .bare s
  | .number s => .number s
  | .bool b => .bool b
  | .null => .null

def Operand.numbered (k : ℕ) : Operand String → Operand ℕ
  | .neg a => .neg (a.numbered k)
  | .plain a ss => .plain (a.numbered k) ss

def Expr.numbered (k : ℕ) : Expr String → Expr ℕ
  | .compare a op b => .compare (a.numbered k) op (b.numbered (k+a.params.length))
  | .isNull a negated => .isNull (a.numbered k) negated
  | .inSelect a negated project schema table => .inSelect (a.numbered k) negated project schema table
  | .inSelectWhere a negated project schema table w =>
    .inSelectWhere (a.numbered k) negated project schema table (w.numbered (k+a.params.length))
  | .const b => .const b
  | .paren e => .paren (e.numbered k)
  | .not e => .not (e.numbered k)
  | .and e f => .and (e.numbered k) (f.numbered (k+e.params.length))
  | .or e f => .or (e.numbered k) (f.numbered (k+e.params.length))

/-- A condition with its placeholders replaced by the values they are bound to. -/
def Atom.bind (env : ℕ → Option String) : Atom ℕ → Option (Atom String)
  | .param k => (env k).map .param
  | .column s => some (.column s)
  | .bare s => some (.bare s)
  | .number s => some (.number s)
  | .bool b => some (.bool b)
  | .null => some .null

def Operand.bind (env : ℕ → Option String) : Operand ℕ → Option (Operand String)
  | .neg a => (a.bind env).map .neg
  | .plain a ss => (a.bind env).map (.plain · ss)

def Expr.bind (env : ℕ → Option String) : Expr ℕ → Option (Expr String)
  | .compare a op b => do return .compare (← a.bind env) op (← b.bind env)
  | .isNull a negated => do return .isNull (← a.bind env) negated
  | .inSelect a negated project schema table => do return .inSelect (← a.bind env) negated project schema table
  | .inSelectWhere a negated project schema table w => do
    return .inSelectWhere (← a.bind env) negated project schema table (← w.bind env)
  | .const b => some (.const b)
  | .paren e => (e.bind env).map .paren
  | .not e => (e.bind env).map .not
  | .and e f => do return .and (← e.bind env) (← f.bind env)
  | .or e f => do return .or (← e.bind env) (← f.bind env)

/-- The placeholders from `k` on stand for these values. -/
def Binds (env : ℕ → Option String) : ℕ → List String → Prop
  | _,[] => True
  | k,p :: ps => env k = some p ∧ Binds env (k+1) ps

/-- Conditions joined by an operator; `unit` is what none of them is. -/
def Expr.chain {π : Type} (op : Expr π → Expr π → Expr π) (unit : Expr π) : List (Expr π) → Expr π
  | [] => unit
  | [e] => e
  | e :: f :: es => op e (chain op unit (f :: es))

def Expr.allOf {π : Type} : List (Expr π) → Expr π := chain .and (.const true)
def Expr.anyOf {π : Type} : List (Expr π) → Expr π := chain .or (.const false)

/-- Several conditions, their placeholders numbered one after the other. -/
def Expr.numberedAll (k : ℕ) : List (Expr String) → List (Expr ℕ)
  | [] => []
  | e :: es => e.numbered k :: numberedAll (k+e.params.length) es

end SqlExpr
