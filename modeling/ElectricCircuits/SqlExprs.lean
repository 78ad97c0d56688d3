import ElectricCircuits.SqlText
import ElectricCircuits.SubqIndex

/-! The conditions that the texts of a predicate are: each text is that of its condition, with placeholders
numbered in the order in which the values are pushed. -/
namespace ElectricCircuits
open SqlExpr

def comparator : LeafOp → Comparator
  | .eq => .eq
  | .neq => .neq
  | .lt => .lt
  | .lte => .lte
  | .gt => .gt
  | .gte => .gte
  | .like => .like

/-- A literal as it goes into the text, or into a parameter. -/
inductive SqlLiteral where
  | null
  | bool (b : Bool)
  | number (s : String)
  | text (s : String)

def Value.sqlLiteral : Value → SqlLiteral
  | .null => .null
  | .int i => .number (toString i)
  | .float f => .number f.toText
  | .bool b => .bool b
  | .text s => .text s

def Json.sqlLiteral (ft : FloatText) : Json → SqlLiteral
  | .null => .null
  | .bool b => .bool b
  | .int i => .number (toString i)
  | .float f => .number (String.ofList (ft.text f))
  | .string s => .text s
  | other => .text (String.ofList (other.chars ft))

/-- What a number without its sign is read as: a numeral, or a bare name. -/
def numberAtom (cs : List Char) : Atom String :=
  if cs.head?.any Char.isDigit then .number (String.ofList cs) else .bare (String.ofList cs)

def numberOperand (s : String) : Operand String :=
  match s.toList with
  | '-' :: cs => .neg (numberAtom cs)
  | cs => .plain (numberAtom cs) []

/-- A column compared with a literal. -/
def leafExpr (col : String) (collated : Bool) (op : LeafOp) (pgType : Option String) : SqlLiteral → Expr String
  | .null => .compare (.plain (.column col) []) (comparator op) (.plain .null [])
  | .bool b => .compare (.plain (.column col) []) (comparator op) (.plain (.bool b) [])
  | .number s => .compare (.plain (.column col) []) (comparator op) (numberOperand s)
  | .text s =>
    let suffixes := if op.isOrdering && collated then [.collate "C"] else []
    match pgType with
    | some ty => .compare (.plain (.column col) suffixes) (comparator op) (.plain (.param s) [.text,.cast ty])
    | none => .compare (.plain (.column col) (suffixes ++ [.text])) (comparator op) (.plain (.param s) [])

section
variable (t : PgTable)

mutual

/-- The condition of a compiled predicate. -/
def exprOf : CompiledPredicate → Expr String
  | .matchAll => .const true
  | .cmp col op value => leafExpr (t.columns.getD col ("",.text)).1 (t.isCollatableText col) op (t.pgTypeAt col)
      value.sqlLiteral
  | .isNull col b => .isNull (.plain (.column (t.columns.getD col ("",.text)).1) []) (!b)
  | .and ps => if ps.isEmpty then .const true else .paren (Expr.allOf (exprsOf ps))
  | .or ps => if ps.isEmpty then .const false else .paren (Expr.anyOf (exprsOf ps))
  | .not p => .paren (.not (exprOf p))
  | .inSubquery _ _ _ => .const false

def exprsOf : List CompiledPredicate → List (Expr String)
  | [] => []
  | p :: ps => exprOf p :: exprsOf ps

end

end

section
variable (ft : FloatText) (schemas : String → Option PgTable)

def pgTypeIn (table col : String) : Option String := (schemas table).bind fun t => t.pgTypeOf col

def collatableIn (table col : String) : Bool :=
  ((schemas table).bind fun t => ((t.columns.map (·.1)).idxOf? col).map t.isCollatableText).getD false

mutual

/-- The condition of the predicate of a request on a table. -/
def jsonExpr (table : String) : PredicateJson → Expr String
  | .leaf col op value => leafExpr col (collatableIn schemas table col) op (pgTypeIn schemas table col)
      (value.json.sqlLiteral ft)
  | .isNull col b => .isNull (.plain (.column col) []) (!b)
  | .and ps => if ps.isEmpty then .const true else .paren (Expr.allOf (jsonExprs table ps))
  | .or ps => if ps.isEmpty then .const false else .paren (Expr.anyOf (jsonExprs table ps))
  | .not p => .paren (.not (jsonExpr table p))
  | .inSubquery col negated inner project where_ =>
    let a : Operand String := .plain (.column col) []
    match innerExpr inner where_ with
    | none => .inSelect a negated project (tableSchemaPart inner) (tableNamePart inner)
    | some w => .inSelectWhere a negated project (tableSchemaPart inner) (tableNamePart inner) w

def jsonExprs (table : String) : List PredicateJson → List (Expr String)
  | [] => []
  | p :: ps => jsonExpr table p :: jsonExprs table ps

def innerExpr (inner : String) : Option PredicateJson → Option (Expr String)
  | none => none
  | some w => some (jsonExpr inner w)

end

end
lemma toList_quoteIdent (s : String) : (quoteIdent s).toList = quotedText s := by
  rw [quoteIdent,String.toList_ofList,quotedText]

lemma toList_opSql (op : LeafOp) : (opSql op).toList = (comparator op).text := by cases op <;> rfl

lemma numberOperand_text (s : String) (k : ℕ) :
    ((numberOperand s).numbered k).text = s.toList ∧ (numberOperand s).params = [] := by
  have hatom : ∀ cs, ((numberAtom cs).numbered k).text = cs ∧ (numberAtom cs).params = [] := by
    intro cs
    rw [numberAtom]
    split
    · exact ⟨String.toList_ofList,rfl⟩
    · exact ⟨String.toList_ofList,rfl⟩
  rw [numberOperand]
  split
  · next cs h =>
    rw [h]
    exact ⟨congrArg ('-' :: ·) (hatom cs).1,(hatom cs).2⟩
  · next h =>
    refine ⟨?_,(hatom _).2⟩
    rw [Operand.numbered,Operand.text,(hatom _).1,List.flatMap_nil,List.append_nil]

/-- A numeral, perhaps with a minus before it. -/
def Spelled (s : String) : Prop :=
  ∃ cs, cs.head?.any Char.isDigit = true ∧ numeral cs = (cs,[]) ∧ (s.toList = cs ∨ s.toList = '-' :: cs)

lemma numberOperand_spelled {s : String} (h : Spelled s) : ∃ r, (Atom.number r : Atom String).Ok ∧
    (numberOperand s = .plain (.number r) [] ∧ s = r ∨ numberOperand s = .neg (.number r) ∧ s = "-" ++ r) := by
  obtain ⟨cs,hhead,hnum,hs⟩ := h
  have hatom : numberAtom cs = .number (String.ofList cs) := if_pos hhead
  refine ⟨String.ofList cs,by rw [Atom.Ok,String.toList_ofList]; exact ⟨hhead,hnum⟩,?_⟩
  rw [numberOperand]
  rcases hs with hs | hs
  · rw [hs]
    refine .inl ⟨?_,String.toList_inj.mp (by rw [hs,String.toList_ofList])⟩
    split
    · cases hhead
    · rw [hatom]
  · rw [hs]
    refine .inr ⟨congrArg Operand.neg hatom,String.toList_inj.mp ?_⟩
    rw [hs,String.toList_append,String.toList_ofList,String.toList_ofList]
    rfl

lemma Spelled.ok {s : String} (h : Spelled s) : (numberOperand s).Ok := by
  obtain ⟨r,hr,⟨h,-⟩ | ⟨h,-⟩⟩ := numberOperand_spelled h
  · rw [h]; exact hr
  · rw [h]; exact hr

lemma head?_toDigits (n : ℕ) (rest : List Char) : (Nat.toDigits 10 n ++ rest).head?.any Char.isDigit = true := by
  obtain ⟨c,cs,h⟩ := List.exists_cons_of_ne_nil (Nat.toDigits_ne_nil (b := 10) (n := n))
  have hc : c.isDigit = true :=
    Nat.isDigit_of_mem_toDigits (by decide) (by decide) (h ▸ List.mem_cons_self (a := c) (l := cs))
  rw [h]
  exact hc

lemma digits_toDigits (n : ℕ) : ∀ c ∈ Nat.toDigits 10 n, c.isDigit = true :=
  fun _ hc => Nat.isDigit_of_mem_toDigits (by decide) (by decide) hc

lemma spelled_int (i : ℤ) : Spelled (toString i) := by
  have hnum : ∀ n, numeral (Nat.toDigits 10 n) = (Nat.toDigits 10 n,[]) :=
    fun n => (numeral_digits (f := []) (digits_toDigits n) nofun).1
  have hhead : ∀ n, (Nat.toDigits 10 n).head?.any Char.isDigit = true := fun n => by simpa using head?_toDigits n []
  cases i with
  | ofNat n => exact ⟨_,hhead n,hnum n,.inl Nat.toList_repr⟩
  | negSucc n =>
    exact ⟨_,hhead (n+1),hnum (n+1),.inr (String.toList_append.trans (congrArg ("-".toList ++ ·) Nat.toList_repr))⟩

/-- A decimal is written as a numeral. -/
lemma positional_numeral (d : ℕ × ℤ) : (Binary64.positional d).head?.any Char.isDigit = true ∧
    numeral (Binary64.positional d) = (Binary64.positional d,[]) := by
  rw [Binary64.positional]
  split
  · exact ⟨by simpa using head?_toDigits _ [],(numeral_digits (f := []) (digits_toDigits _) (by simp)).1⟩
  · refine ⟨head?_toDigits _ _,(numeral_digits (digits_toDigits _) fun c hc => ?_).2⟩
    rcases List.mem_append.mp hc with hc | hc
    · rw [(List.mem_replicate.mp hc).2]
      decide
    · exact digits_toDigits _ c hc

/-- A finite double is written as a numeral. -/
lemma spelled_double {f : OrderedFloat} (hf : f.isFinite = true) : Spelled f.toText := by
  have htext := f.toList_toText
  rw [OrderedFloat.isNan_of_isFinite hf,if_neg Bool.false_ne_true] at htext
  have hmagnitude : (OrderedFloat.magnitudeText f.magnitude).head?.any Char.isDigit = true ∧
      numeral (OrderedFloat.magnitudeText f.magnitude) = (OrderedFloat.magnitudeText f.magnitude,[]) := by
    rw [OrderedFloat.isFinite,decide_eq_true_iff] at hf
    rw [OrderedFloat.magnitudeText,if_neg hf.ne]
    split
    · exact ⟨rfl,by decide⟩
    · exact positional_numeral _
  refine ⟨_,hmagnitude.1,hmagnitude.2,?_⟩
  cases hneg : f.isNegative with
  | false => exact .inl (by simpa [hneg] using htext)
  | true => exact .inr (by simpa [hneg] using htext)

/-- A double that is not finite is written as a bare name. -/
lemma infinite_text {f : OrderedFloat} (hf : f.isFinite = false) : ∃ s, (Atom.bare s : Atom String).Ok ∧
    (numberOperand f.toText = .plain (.bare s) [] ∨ numberOperand f.toText = .neg (.bare s)) := by
  have htext := f.toList_toText
  have hofList : ∀ {cs : List Char}, f.toText.toList = cs → f.toText = String.ofList cs := fun h =>
    String.toList_inj.mp (by rw [h,String.toList_ofList])
  split at htext
  · rw [hofList htext]
    exact ⟨"NaN",Atom.ok_bare String rfl (by decide) (by rfl),.inl rfl⟩
  · next hnan =>
    have hinf : f.magnitude = 0x7FF0000000000000 := by
      rw [OrderedFloat.isFinite,decide_eq_false_iff_not] at hf
      rw [OrderedFloat.isNan,decide_eq_true_iff] at hnan
      omega
    rw [OrderedFloat.magnitudeText,if_pos hinf] at htext
    rw [hofList htext]
    refine ⟨"inf",Atom.ok_bare String rfl (by decide) (by rfl),?_⟩
    split
    · exact .inr rfl
    · exact .inl rfl

lemma ok_infinite {f : OrderedFloat} (hf : f.isFinite = false) : (numberOperand f.toText).Ok := by
  obtain ⟨s,hs,h | h⟩ := infinite_text hf
  · rw [h]; exact hs
  · rw [h]; exact hs

/-- The text of a column against an operand without values. -/
lemma compare_text (col x : String) (op : LeafOp) {b : Operand String} (k : ℕ) (hb : (b.numbered k).text = x.toList) :
    ((Expr.compare (.plain (.column col) []) (comparator op) b).numbered k).text =
      (quoteIdent col ++ " " ++ opSql op ++ " " ++ x).toList := by
  change (quotedText col ++ []) ++ ' ' :: (comparator op).text ++ ' ' :: (b.numbered k).text = _
  rw [hb]
  simp [toList_quoteIdent,toList_opSql]

lemma param_text (col : String) (collated : Bool) (op : LeafOp) (s : String) (pgType : Option String) (k : ℕ) :
    ((leafExpr col collated op pgType (.text s)).numbered k).text =
      (textParamCmp
        (if op.isOrdering && collated then quoteIdent col ++ " collate " ++ quoteIdent "C" else quoteIdent col)
        (opSql op) k pgType).toList ∧ (leafExpr col collated op pgType (.text s)).params = [s] := by
  cases pgType with
  | none =>
    rw [leafExpr,textParamCmp]
    split <;> refine ⟨?_,rfl⟩ <;>
      simp [Expr.numbered,Operand.params,Atom.params,Expr.text,Operand.numbered,Atom.numbered,Operand.text,Atom.text,
        Suffix.chars,toList_quoteIdent,toList_opSql]
  | some ty =>
    rw [leafExpr,textParamCmp]
    split <;> refine ⟨?_,rfl⟩ <;>
      simp [Expr.numbered,Operand.params,Atom.params,Expr.text,Operand.numbered,Atom.numbered,Operand.text,Atom.text,
        Suffix.chars,toList_quoteIdent,toList_opSql]


/-- The text of a condition with its placeholders numbered from `k`. -/
def textFrom (k : ℕ) (e : Expr String) : String := String.ofList (e.numbered k).text

def textsFrom (k : ℕ) (es : List (Expr String)) : List String :=
  (Expr.numberedAll k es).map fun e => String.ofList e.text

lemma textsFrom_cons (k : ℕ) (e : Expr String) (es : List (Expr String)) :
    textsFrom k (e :: es) = textFrom k e :: textsFrom (k+e.params.length) es := rfl

lemma textFrom_eq {k : ℕ} {e : Expr String} {s : String} (h : (e.numbered k).text = s.toList) : textFrom k e = s := by
  rw [textFrom,h,String.ofList_toList]

/-- The text of a column against a literal that is written out. -/
lemma inline_text (col : String) (collated : Bool) (op : LeafOp) (pgType : Option String) (k : ℕ) :
    (textFrom k (leafExpr col collated op pgType .null) = quoteIdent col ++ " " ++ opSql op ++ " NULL" ∧
      (leafExpr col collated op pgType .null).params = []) ∧
    (∀ b, textFrom k (leafExpr col collated op pgType (.bool b)) =
        quoteIdent col ++ " " ++ opSql op ++ " " ++ boolSql b ∧
      (leafExpr col collated op pgType (.bool b)).params = []) ∧
    ∀ s, textFrom k (leafExpr col collated op pgType (.number s)) = quoteIdent col ++ " " ++ opSql op ++ " " ++ s ∧
      (leafExpr col collated op pgType (.number s)).params = [] := by
  refine ⟨⟨textFrom_eq ?_,rfl⟩,fun b => ⟨textFrom_eq (compare_text col _ op k (by cases b <;> rfl)),rfl⟩,fun s =>
    ⟨textFrom_eq (compare_text col s op k (numberOperand_text s k).1),(numberOperand_text s k).2⟩⟩
  rw [leafExpr,compare_text col "NULL" op k rfl]
  simp

lemma isNull_text (col : String) (b : Bool) (k : ℕ) :
    ((Expr.isNull (.plain (.column col) []) (!b)).numbered k).text =
      (quoteIdent col ++ " IS " ++ (if b then "" else "NOT ") ++ "NULL").toList := by
  change (quotedText col ++ []) ++ [' ','I','S',' '] ++ (if !b then ['N','O','T',' '] else []) ++ ['N','U','L','L'] = _
  cases b <;> simp [toList_quoteIdent]

/-- A parenthesis around joined conditions. -/
lemma paren_text {e : Expr String} {k : ℕ} {parts : List String} (sep : String)
    (h : (e.numbered k).text = sep.toList.intercalate (parts.map String.toList)) :
    ((Expr.paren e).numbered k).text = ("(" ++ sep.intercalate parts ++ ")").toList := by
  change '(' :: (e.numbered k).text ++ [')'] = _
  rw [h]
  simp [String.toList_intercalate]

lemma exprsOf_eq_map (t : PgTable) (ps : List CompiledPredicate) : exprsOf t ps = ps.map (exprOf t) := by
  induction ps with
  | nil => rfl
  | cons p ps ih => rw [exprsOf,ih,List.map_cons]

lemma jsonExprs_eq_map (ft : FloatText) (schemas : String → Option PgTable) (table : String)
    (ps : List PredicateJson) : jsonExprs ft schemas table ps = ps.map (jsonExpr ft schemas table) := by
  induction ps with
  | nil => rfl
  | cons p ps ih => rw [jsonExprs,ih,List.map_cons]

lemma textFrom_all (k : ℕ) {es : List (Expr String)} (hes : es ≠ []) :
    textFrom k (.paren (Expr.allOf es)) = "(" ++ " AND ".intercalate (textsFrom k es) ++ ")" := by
  obtain ⟨e,es,rfl⟩ := List.exists_cons_of_ne_nil hes
  refine textFrom_eq (paren_text " AND " ?_)
  rw [Expr.allOf_text e es k,textsFrom,List.map_map]
  simp [Function.comp_def]

lemma textFrom_any (k : ℕ) {es : List (Expr String)} (hes : es ≠ []) :
    textFrom k (.paren (Expr.anyOf es)) = "(" ++ " OR ".intercalate (textsFrom k es) ++ ")" := by
  obtain ⟨e,es,rfl⟩ := List.exists_cons_of_ne_nil hes
  refine textFrom_eq (paren_text " OR " ?_)
  rw [Expr.anyOf_text e es k,textsFrom,List.map_map]
  simp [Function.comp_def]

lemma textFrom_not (k : ℕ) (e : Expr String) : textFrom k (.paren (.not e)) = "(NOT " ++ textFrom k e ++ ")" := by
  refine textFrom_eq ?_
  change '(' :: (['N','O','T',' '] ++ (e.numbered k).text) ++ [')'] = _
  rw [textFrom]
  simp

lemma params_chain {es : List (Expr String)} (hes : es ≠ []) : (Expr.allOf es).params = es.flatMap Expr.params ∧
    (Expr.anyOf es).params = es.flatMap Expr.params := by
  obtain ⟨e,es,rfl⟩ := List.exists_cons_of_ne_nil hes
  exact ⟨Expr.chain_params (fun _ _ => rfl) e es,Expr.chain_params (fun _ _ => rfl) e es⟩

namespace CompiledPredicate

/-- A leaf that has its column, and a literal of the column's type; there is no subquery among them. -/
def Emits (t : PgTable) : CompiledPredicate → Prop
  | .cmp col _ v => ∃ c, t.columns[col]? = some c ∧ (v = .null ∨ v.HasType c.2)
  | .isNull col _ => col < t.columns.length
  | .inSubquery _ _ _ => False
  | _ => True

variable {t : PgTable}

lemma build_leaf {p : CompiledPredicate} (hleaf : p.isLeaf = true) (h : p.Emits t) (params : List String) :
    build t p params = .ok (textFrom (params.length+1) (exprOf t p),params ++ (exprOf t p).params) := by
  cases p with
  | matchAll =>
    rw [build,exprOf,textFrom_eq (s := "TRUE") (by rfl)]
    simp [Expr.params]
  | cmp col op v =>
    obtain ⟨c,hc,-⟩ := h
    have hname : t.columns.getD col ("",.text) = c := by rw [List.getD_eq_getElem?_getD,hc,Option.getD_some]
    rw [build,exprOf,hname]
    simp only [hc]
    obtain ⟨hnull,hbool,hnumber⟩ := inline_text c.1 (t.isCollatableText col) op (t.pgTypeAt col) (params.length+1)
    cases v with
    | null => rw [Value.sqlLiteral,hnull.1,hnull.2,List.append_nil]
    | bool b => rw [Value.sqlLiteral,(hbool b).1,(hbool b).2,List.append_nil]
    | int i => rw [Value.sqlLiteral,(hnumber _).1,(hnumber _).2,List.append_nil]
    | float f => rw [Value.sqlLiteral,(hnumber _).1,(hnumber _).2,List.append_nil]
    | text s =>
      obtain ⟨htext,hparams⟩ := param_text c.1 (t.isCollatableText col) op s (t.pgTypeAt col) (params.length+1)
      rw [Value.sqlLiteral,textFrom_eq htext,hparams]
  | isNull col b =>
    have hc : t.columns[col]? = some t.columns[col] := List.getElem?_eq_getElem h
    have hname : t.columns.getD col ("",.text) = t.columns[col] := by
      rw [List.getD_eq_getElem?_getD,hc,Option.getD_some]
    rw [build,exprOf,hname]
    simp [hc,textFrom_eq (isNull_text _ b _),Expr.params,Operand.params,Atom.params]
  | inSubquery => exact h.elim
  | and => cases hleaf
  | or => cases hleaf
  | not => cases hleaf

lemma buildAll_eq {ps : List CompiledPredicate} (h : ∀ p ∈ ps, ∀ params, build t p params =
      .ok (textFrom (params.length+1) (exprOf t p),params ++ (exprOf t p).params)) :
    ∀ params, buildAll t ps params = .ok (textsFrom (params.length+1) (exprsOf t ps),
      params ++ (exprsOf t ps).flatMap Expr.params) := by
  induction ps with
  | nil =>
    intro params
    simp [buildAll,exprsOf,textsFrom,Expr.numberedAll]
  | cons p ps ih =>
    intro params
    obtain ⟨hp,hps⟩ := List.forall_mem_cons.mp h
    have hlength : (params ++ (exprOf t p).params).length+1 = params.length+1+(exprOf t p).params.length := by
      rw [List.length_append]
      omega
    rw [buildAll,hp params]
    simp only [bind,Except.bind,ih hps,hlength,exprsOf,textsFrom_cons,List.flatMap_cons,List.append_assoc]
    rfl

/-- The text of a predicate is that of its condition, and its parameters are the values of the condition. -/
theorem build_eq (p : CompiledPredicate) : ∀ odd, (∀ l ∈ leaves odd p, l.2.Emits t) → ∀ params,
    build t p params = .ok (textFrom (params.length+1) (exprOf t p),params ++ (exprOf t p).params) := by
  induction p using CompiledPredicate.induction_on with
  | and ps ih =>
    intro odd h params
    have hps := buildAll_eq fun p hp => ih p hp odd fun l hl => h l ((mem_leavesList odd ps l).mpr ⟨p,hp,hl⟩)
    cases hnil : ps with
    | nil =>
      rw [build,exprOf]
      simp [textFrom_eq (k := params.length+1) (e := .const true) (s := "TRUE") (by rfl),Expr.params]
    | cons q qs =>
      rw [← hnil]
      have hne : exprsOf t ps ≠ [] := by rw [exprsOf_eq_map,hnil]; exact List.cons_ne_nil _ _
      have hfull : ps.isEmpty = false := by rw [hnil]; rfl
      rw [build,exprOf,hfull]
      simp only [Bool.false_eq_true,if_false,hps,bind,Except.bind,textFrom_all _ hne,Expr.params,(params_chain hne).1]
      rfl
  | or ps ih =>
    intro odd h params
    have hps := buildAll_eq fun p hp => ih p hp odd fun l hl => h l ((mem_leavesList odd ps l).mpr ⟨p,hp,hl⟩)
    cases hnil : ps with
    | nil =>
      rw [build,exprOf]
      simp [textFrom_eq (k := params.length+1) (e := .const false) (s := "FALSE") (by rfl),Expr.params]
    | cons q qs =>
      rw [← hnil]
      have hne : exprsOf t ps ≠ [] := by rw [exprsOf_eq_map,hnil]; exact List.cons_ne_nil _ _
      have hfull : ps.isEmpty = false := by rw [hnil]; rfl
      rw [build,exprOf,hfull]
      simp only [Bool.false_eq_true,if_false,hps,bind,Except.bind,textFrom_any _ hne,Expr.params,(params_chain hne).2]
      rfl
  | not p ih =>
    intro odd h params
    rw [build,ih (!odd) h params,exprOf,textFrom_not]
    rfl
  | _ => exact fun odd h params => build_leaf rfl (h _ (List.mem_singleton_self _)) params

end CompiledPredicate
namespace PredicateJson
variable {ft : FloatText} {start : ℕ} {schemas : String → Option PgTable}

lemma buildJson_leaf (table col : String) (op : LeafOp) (value : Literal) (params : List String) :
    buildJson ft start schemas table (.leaf col op value) params =
      (textFrom (start+params.length) (jsonExpr ft schemas table (.leaf col op value)),
        params ++ (jsonExpr ft schemas table (.leaf col op value)).params) := by
  have hlength : ∀ s : String, start+(params ++ [s]).length-1 = start+params.length := by
    intro s
    rw [List.length_append,List.length_singleton]
    omega
  obtain ⟨hnull,hbool,hnumber⟩ := inline_text col (collatableIn schemas table col) op (pgTypeIn schemas table col)
    (start+params.length)
  have hparam : ∀ s, textFrom (start+params.length) (leafExpr col (collatableIn schemas table col) op
        (pgTypeIn schemas table col) (.text s)) =
        textParamCmp (if op.isOrdering && collatableIn schemas table col
          then quoteIdent col ++ " collate " ++ quoteIdent "C" else quoteIdent col) (opSql op)
          (start+params.length) (pgTypeIn schemas table col) ∧
      (leafExpr col (collatableIn schemas table col) op (pgTypeIn schemas table col) (.text s)).params = [s] := by
    intro s
    obtain ⟨htext,hparams⟩ := param_text col (collatableIn schemas table col) op s (pgTypeIn schemas table col)
      (start+params.length)
    exact ⟨textFrom_eq htext,hparams⟩
  rw [buildJson,jsonExpr]
  simp only [hlength]
  cases value.json with
  | null => rw [Json.sqlLiteral,hnull.1,hnull.2,List.append_nil]
  | bool b => rw [Json.sqlLiteral,(hbool b).1,(hbool b).2,List.append_nil]
  | int i => rw [Json.sqlLiteral,(hnumber _).1,(hnumber _).2,List.append_nil]
  | float f => rw [Json.sqlLiteral,(hnumber _).1,(hnumber _).2,List.append_nil]
  | string s =>
    rw [Json.sqlLiteral,(hparam s).1,(hparam s).2]
    rfl
  | array xs =>
    rw [Json.sqlLiteral,(hparam _).1,(hparam _).2]
    · rfl
    all_goals simp
  | object fields =>
    rw [Json.sqlLiteral,(hparam _).1,(hparam _).2]
    · rfl
    all_goals simp

lemma buildJsonAll_eq {table : String} {ps : List PredicateJson} (h : ∀ p ∈ ps, ∀ params,
      buildJson ft start schemas table p params = (textFrom (start+params.length) (jsonExpr ft schemas table p),
        params ++ (jsonExpr ft schemas table p).params)) :
    ∀ params, buildJsonAll ft start schemas table ps params =
      (textsFrom (start+params.length) (jsonExprs ft schemas table ps),
        params ++ (jsonExprs ft schemas table ps).flatMap Expr.params) := by
  induction ps with
  | nil =>
    intro params
    simp [buildJsonAll,jsonExprs,textsFrom,Expr.numberedAll]
  | cons p ps ih =>
    intro params
    obtain ⟨hp,hps⟩ := List.forall_mem_cons.mp h
    have hlength : start+(params ++ (jsonExpr ft schemas table p).params).length =
        start+params.length+(jsonExpr ft schemas table p).params.length := by
      rw [List.length_append]
      omega
    rw [buildJsonAll,hp params]
    simp only [ih hps,hlength,jsonExprs,textsFrom_cons,List.flatMap_cons,List.append_assoc]

/-- The text of a request's predicate is that of its condition, placeholders in subqueries among them. -/
theorem buildJson_eq (p : PredicateJson) : ∀ table params, buildJson ft start schemas table p params =
    (textFrom (start+params.length) (jsonExpr ft schemas table p),
      params ++ (jsonExpr ft schemas table p).params) := by
  induction p using PredicateJson.induction_on with
  | leaf col op value => exact fun table params => buildJson_leaf table col op value params
  | isNull col b =>
    intro table params
    rw [buildJson,jsonExpr,textFrom_eq (isNull_text _ b _)]
    simp [Expr.params,Operand.params,Atom.params]
  | and ps ih =>
    intro table params
    have hps := buildJsonAll_eq fun p hp => ih p hp table
    cases hnil : ps with
    | nil =>
      rw [buildJson,jsonExpr]
      simp [textFrom_eq (k := start+params.length) (e := .const true) (s := "TRUE") (by rfl),Expr.params]
    | cons q qs =>
      rw [← hnil]
      have hne : jsonExprs ft schemas table ps ≠ [] := by
        rw [jsonExprs_eq_map,hnil]
        exact List.cons_ne_nil _ _
      have hfull : ps.isEmpty = false := by rw [hnil]; rfl
      rw [buildJson,jsonExpr,hfull]
      simp only [Bool.false_eq_true,if_false,hps,textFrom_all _ hne,Expr.params,(params_chain hne).1]
  | or ps ih =>
    intro table params
    have hps := buildJsonAll_eq fun p hp => ih p hp table
    cases hnil : ps with
    | nil =>
      rw [buildJson,jsonExpr]
      simp [textFrom_eq (k := start+params.length) (e := .const false) (s := "FALSE") (by rfl),Expr.params]
    | cons q qs =>
      rw [← hnil]
      have hne : jsonExprs ft schemas table ps ≠ [] := by
        rw [jsonExprs_eq_map,hnil]
        exact List.cons_ne_nil _ _
      have hfull : ps.isEmpty = false := by rw [hnil]; rfl
      rw [buildJson,jsonExpr,hfull]
      simp only [Bool.false_eq_true,if_false,hps,textFrom_any _ hne,Expr.params,(params_chain hne).2]
  | not p ih =>
    intro table params
    rw [buildJson,ih table params,jsonExpr,textFrom_not]
    rfl
  | inSubquery col negated inner project where_ ih =>
    intro table params
    have hselect : (selectText negated project (tableSchemaPart inner) (tableNamePart inner)) =
        (" " ++ (if negated then "NOT IN" else "IN") ++ " (SELECT " ++ quoteIdent project ++ " FROM " ++
          quoteQualified inner).toList := by
      cases negated <;> simp [selectText,quoteQualified,toList_quoteIdent]
    rw [buildJson,jsonExpr]
    cases where_ with
    | none =>
      rw [buildInner,innerExpr]
      refine Prod.ext (textFrom_eq ?_).symm (by simp [Expr.params,Operand.params,Atom.params])
      change (quotedText col ++ []) ++ selectText _ _ _ _ ++ [')'] = _
      rw [hselect]
      simp [toList_quoteIdent]
    | some w =>
      rw [buildInner,innerExpr,ih w rfl inner params]
      refine Prod.ext (textFrom_eq ?_).symm (by simp [Expr.params,Operand.params,Atom.params])
      change (quotedText col ++ []) ++ selectText _ _ _ _ ++ [' ','W','H','E','R','E',' '] ++
        ((jsonExpr ft schemas inner w).numbered (start+params.length)).text ++ [')'] = _
      rw [hselect,textFrom]
      simp [toList_quoteIdent]

end PredicateJson
end ElectricCircuits
