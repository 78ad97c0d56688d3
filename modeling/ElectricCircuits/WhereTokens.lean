import ElectricCircuits.WhereSql
import ElectricCircuits.Lib.Lexer

/-! The tokens of a WHERE clause, and a text for every sequence of them. -/
namespace ElectricCircuits
namespace WhereSql

/-- `is_alphabetic` and `is_numeric`; what they say of ASCII is all that the proofs use. -/
structure CharClass where
  alphabetic : Char → Bool
  numeric : Char → Bool
  space : alphabetic ' ' = false ∧ numeric ' ' = false
  ascii : ∀ c : Char, c.isAlpha = true → alphabetic c = true

inductive LexError where
  | unterminatedString
  | unterminatedIdentifier
  | malformedNumber (buf : String)
  | unexpected (c : Char)
  | fuel
  deriving DecidableEq

/-- The rest of a quoted text up to its closing quote; a quote is doubled inside. -/
def quotedText (q : Char) : List Char → Option (List Char × List Char)
  | [] => none
  | [c] => if c = q then some ([],[]) else none
  | c :: d :: cs =>
    if c = q then
      if d = q then (quotedText q cs).map fun r => (q :: r.1,r.2) else some ([],d :: cs)
    else (quotedText q (d :: cs)).map fun r => (c :: r.1,r.2)

def isOperator (c : Char) : Bool := c ∈ ['=','<','>','!']

def digitAt (cs : List Char) : Bool := cs.head?.any Char.isDigit

/-- Does a numeric literal start here? -/
def startsNumber : List Char → Bool
  | '.' :: cs => digitAt cs
  | '-' :: cs => digitAt cs || (cs.head? == some '.' && digitAt cs.tail)
  | cs => digitAt cs

/-- Digits, and one dot among them. -/
def mantissa (seenDot : Bool) : List Char → List Char × List Char
  | [] => ([],[])
  | c :: cs =>
    if c.isDigit ∨ (c = '.' ∧ seenDot = false) then
      let r := mantissa (seenDot || c == '.') cs
      (c :: r.1,r.2)
    else ([],c :: cs)

/-- An exponent, if there are digits in it. -/
def exponentPart : List Char → List Char × List Char
  | [] => ([],[])
  | c :: cs =>
    if c = 'e' ∨ c = 'E' then
      let signs := cs.head?.toList.filter fun s => s = '+' ∨ s = '-'
      let rest := cs.drop signs.length
      if digitAt rest then (c :: signs ++ rest.takeWhile Char.isDigit,rest.dropWhile Char.isDigit)
      else ([],c :: cs)
    else ([],c :: cs)

/-- The text of a number and what is left after it. -/
def numberText (cs : List Char) : List Char × List Char :=
  let signs := cs.head?.toList.filter fun s => s = '-'
  let m := mantissa false (cs.drop signs.length)
  let e := exponentPart m.2
  (signs ++ m.1 ++ e.1,e.2)

variable (cls : CharClass)

def isWord (c : Char) : Bool := cls.alphabetic c || cls.numeric c || c == '_'

def keyword (buf : List Char) : Tok :=
  match String.ofList (buf.map Char.toUpper) with
  | "AND" => .and
  | "OR" => .or
  | "NOT" => .not
  | "LIKE" => .like
  | "BETWEEN" => .between
  | "IN" => .in_
  | "SELECT" => .select
  | "FROM" => .from_
  | "WHERE" => .where_
  | "TRUE" => .true
  | "FALSE" => .false
  | "IS" => .is
  | "NULL" => .null
  | _ => .ident (String.ofList buf)

/-- One token and what is left after it; white space has none. -/
def lexOne : List Char → Except LexError (Option Tok × List Char)
  | [] => .ok (none,[])
  | c :: cs =>
    if isWhitespace c then .ok (none,cs)
    else if c = '\'' then
      match quotedText '\'' cs with
      | none => .error .unterminatedString
      | some (buf,rest) => .ok (some (.str (String.ofList buf)),rest)
    else if c = '(' then .ok (some .lparen,cs)
    else if c = ')' then .ok (some .rparen,cs)
    else if c = ',' then .ok (some .comma,cs)
    else if isOperator c then
      .ok (some (.op (String.ofList ((c :: cs).takeWhile isOperator))),(c :: cs).dropWhile isOperator)
    else if c = '"' then
      match quotedText '"' cs with
      | none => .error .unterminatedIdentifier
      | some (buf,rest) => .ok (some (.ident (String.ofList buf)),rest)
    else if startsNumber (c :: cs) then
      let r := numberText (c :: cs)
      if r.2.head?.any fun c => c == '.' || isWord cls c then .error (.malformedNumber (String.ofList r.1))
      else .ok (some (.num (String.ofList r.1)),r.2)
    else if cls.alphabetic c || c == '_' then
      .ok (some (keyword ((c :: cs).takeWhile (isWord cls))),(c :: cs).dropWhile (isWord cls))
    else .error (.unexpected c)

/-- The loop over the text; every turn takes a character at least. -/
def lexLoop : ℕ → List Char → Except LexError (List Tok)
  | _,[] => .ok []
  | 0,_ => .error .fuel
  | n+1,cs => do
    let (t,rest) ← lexOne cls cs
    return t.toList ++ (← lexLoop n rest)

def tokenize (s : List Char) : Except LexError (List Tok) := lexLoop cls s.length s

/-- A text for a token. -/
def Tok.text : Tok → List Char
  | .ident s => '"' :: (s.toList.flatMap fun c => if c = '"' then ['"','"'] else [c]) ++ ['"']
  | .str s => '\'' :: (s.toList.flatMap fun c => if c = '\'' then ['\'','\''] else [c]) ++ ['\'']
  | .num n => n.toList
  | .op s => s.toList
  | .lparen => ['(']
  | .rparen => [')']
  | .comma => [',']
  | .and => ['A','N','D']
  | .or => ['O','R']
  | .not => ['N','O','T']
  | .like => ['L','I','K','E']
  | .between => ['B','E','T','W','E','E','N']
  | .in_ => ['I','N']
  | .select => ['S','E','L','E','C','T']
  | .from_ => ['F','R','O','M']
  | .where_ => ['W','H','E','R','E']
  | .true => ['T','R','U','E']
  | .false => ['F','A','L','S','E']
  | .is => ['I','S']
  | .null => ['N','U','L','L']

/-- Tokens with a space after each. -/
def render (toks : List Tok) : List Char := toks.flatMap fun t => t.text ++ [' ']

/-- The tokens that there are: a number is one that the lexer ends where its text does, an operator is made of
operator characters. -/
def Lexeme : Tok → Prop
  | .num n => startsNumber n.toList = true ∧ numberText n.toList = (n.toList,[])
  | .op s => s ≠ "" ∧ ∀ c ∈ s.toList, isOperator c = true
  | _ => True

lemma quotedText_escape (q : Char) (s rest : List Char) (hq : q ≠ ' ') :
    quotedText q ((s.flatMap fun c => if c = q then [q,q] else [c]) ++ q :: ' ' :: rest) = some (s,' ' :: rest) := by
  induction s with
  | nil => simp [quotedText,Ne.symm hq]
  | cons c s ih =>
    rw [List.flatMap_cons,List.append_assoc]
    by_cases hc : c = q
    · rw [if_pos hc]
      simp only [List.cons_append,List.nil_append,quotedText,if_true]
      rw [ih,hc]
      rfl
    · rw [if_neg hc]
      obtain ⟨d,ds,hd⟩ := List.exists_cons_of_ne_nil
        (l := (s.flatMap fun c => if c = q then [q,q] else [c]) ++ q :: ' ' :: rest) (by simp)
      rw [hd] at ih ⊢
      simp only [List.cons_append,List.nil_append,quotedText,if_neg hc,ih]
      rfl

/-- A number does not go on with it. -/
def EndsNumber (x : Char) : Prop := x.isDigit = false ∧ x ∉ ['.','e','E','+','-']

instance (x : Char) : Decidable (EndsNumber x) := inferInstanceAs (Decidable (_ ∧ _))

lemma mantissa_append {x : Char} (hx : EndsNumber x) (cs rest : List Char) : ∀ seen,
    mantissa seen (cs ++ x :: rest) = ((mantissa seen cs).1,(mantissa seen cs).2 ++ x :: rest) := by
  induction cs with
  | nil =>
    intro seen
    have hdot : x ≠ '.' := fun h => hx.2 (by simp [h])
    rw [List.nil_append,mantissa,mantissa,if_neg (by simp [hx.1,hdot])]
    rfl
  | cons c cs ih =>
    intro seen
    rw [List.cons_append,mantissa,mantissa]
    split
    · rw [ih]
    · rfl

lemma digitAt_append {x : Char} (hx : EndsNumber x) (ds rest : List Char) : digitAt (ds ++ x :: rest) = digitAt ds := by
  cases ds with
  | nil => simp [digitAt,hx.1]
  | cons d ds => rfl

/-- What a class of characters takes ends before one outside it. -/
lemma takeWhile_append {p : Char → Bool} {x : Char} (hx : p x = false) (w rest : List Char) :
    (w ++ x :: rest).takeWhile p = w.takeWhile p ∧ (w ++ x :: rest).dropWhile p = w.dropWhile p ++ x :: rest := by
  induction w with
  | nil => simp [hx]
  | cons c w ih =>
    rw [List.cons_append,List.takeWhile_cons,List.takeWhile_cons,List.dropWhile_cons,List.dropWhile_cons,ih.1,ih.2]
    refine ⟨rfl,?_⟩
    split <;> rfl

lemma exponentPart_append {x : Char} (hx : EndsNumber x) (cs rest : List Char) :
    exponentPart (cs ++ x :: rest) = ((exponentPart cs).1,(exponentPart cs).2 ++ x :: rest) := by
  have hnot : ∀ c ∈ ['.','e','E','+','-'], x ≠ c := by
    rintro c hc rfl
    exact hx.2 hc
  cases cs with
  | nil => rw [List.nil_append,exponentPart,exponentPart,if_neg (by simp [hnot 'e',hnot 'E'])]; rfl
  | cons c cs =>
    rw [List.cons_append,exponentPart,exponentPart]
    split
    · -- the sign of the exponent is not in what follows the number
      have hsigns : ((cs ++ x :: rest).head?.toList.filter fun s => s = '+' ∨ s = '-') =
          cs.head?.toList.filter fun s => s = '+' ∨ s = '-' := by
        cases cs with
        | nil => simp [hnot '+',hnot '-']
        | cons d ds => rfl
      have hdrop : (cs ++ x :: rest).drop (cs.head?.toList.filter fun s => s = '+' ∨ s = '-').length =
          cs.drop (cs.head?.toList.filter fun s => s = '+' ∨ s = '-').length ++ x :: rest := by
        cases cs with
        | nil => rfl
        | cons d ds => by_cases hd : d = '+' ∨ d = '-' <;> simp [hd]
      rw [hsigns]
      simp only [hdrop,digitAt_append hx,takeWhile_append hx.1]
      split <;> rfl
    · rfl

lemma numberText_append {x : Char} (hx : EndsNumber x) {cs : List Char} (hne : cs ≠ []) (rest : List Char) :
    numberText (cs ++ x :: rest) = ((numberText cs).1,(numberText cs).2 ++ x :: rest) := by
  obtain ⟨c,cs,rfl⟩ := List.exists_cons_of_ne_nil hne
  have hdrop : ∀ n ≤ 1, ((c :: cs) ++ x :: rest).drop n = (c :: cs).drop n ++ x :: rest := by
    intro n hn
    rw [List.drop_append_of_le_length (hn.trans (by simp))]
  have hsign : ((c :: cs).head?.toList.filter fun s => s = '-').length ≤ 1 := List.length_filter_le _ _
  have hhead : ((c :: cs) ++ x :: rest).head? = (c :: cs).head? := rfl
  rw [numberText,numberText,hhead]
  simp only [hdrop _ hsign,mantissa_append hx,exponentPart_append hx]

variable {cls : CharClass}

lemma isWord_space : isWord cls ' ' = false := by
  rw [isWord,cls.space.1,cls.space.2]
  rfl

lemma takeWhile_space {p : Char → Bool} {w : List Char} (hw : ∀ c ∈ w, p c = true) (hspace : p ' ' = false)
    (rest : List Char) :
    (w ++ ' ' :: rest).takeWhile p = w ∧ (w ++ ' ' :: rest).dropWhile p = ' ' :: rest := by
  rw [List.takeWhile_append_of_pos hw,List.dropWhile_append_of_pos hw,List.takeWhile_cons,List.dropWhile_cons,hspace]
  simp

/-- A word in the letters of ASCII is read to its end. -/
lemma lexOne_word {w : List Char} (hne : w ≠ []) (hw : ∀ c ∈ w, c.isAlpha = true) (rest : List Char) :
    lexOne cls (w ++ ' ' :: rest) = .ok (some (keyword w),' ' :: rest) := by
  obtain ⟨c,cs,rfl⟩ := List.exists_cons_of_ne_nil hne
  have hc := hw c (.head _)
  have hnat := Delimited.toNat_of_isAlpha hc
  have hneq : ∀ d : Char, d.toNat < 65 → c ≠ d := by
    rintro d hd rfl
    omega
  have hword : ∀ d ∈ c :: cs, isWord cls d = true := by
    intro d hd
    rw [isWord,cls.ascii d (hw d hd)]
    rfl
  obtain ⟨htake,hdrop⟩ := takeWhile_space hword isWord_space rest
  rw [List.cons_append] at htake hdrop ⊢
  have hspace : isWhitespace c = false := isWhitespace_of_ascii (by omega)
  have hop : isOperator c = false := by
    simp [isOperator,hneq '=' (by decide),hneq '<' (by decide),hneq '>' (by decide),hneq '!' (by decide)]
  have hdigit : c.isDigit = false := by
    rw [Char.isDigit]
    simp [UInt32.le_iff_toNat_le]
    omega
  have hnumber : startsNumber (c :: (cs ++ ' ' :: rest)) = false := by
    unfold startsNumber
    split
    · next heq => exact absurd (List.cons.inj heq).1 (hneq _ (by decide))
    · next heq => exact absurd (List.cons.inj heq).1 (hneq _ (by decide))
    · exact hdigit
  rw [lexOne,hspace,hop,hnumber,htake,hdrop,cls.ascii c hc]
  simp only [hneq _ (by decide : '\''.toNat < 65),hneq _ (by decide : '('.toNat < 65),
    hneq _ (by decide : ')'.toNat < 65),hneq _ (by decide : ','.toNat < 65),
    hneq _ (by decide : '"'.toNat < 65),if_false,Bool.false_eq_true,Bool.true_or,if_true]

/-- A number starts with a digit, a dot or a minus. -/
lemma head_number {c : Char} {cs : List Char} (h : startsNumber (c :: cs) = true) :
    c.isDigit = true ∨ c = '.' ∨ c = '-' := by
  unfold startsNumber at h
  split at h
  · next heq => exact .inr (.inl (List.cons.inj heq).1)
  · next heq => exact .inr (.inr (List.cons.inj heq).1)
  · exact .inl h

lemma startsNumber_append {cs : List Char} (h : startsNumber cs = true) (rest : List Char) :
    startsNumber (cs ++ rest) = true := by
  have hdigit : ∀ ds : List Char, digitAt ds = true → digitAt (ds ++ rest) = true := by
    intro ds hds
    cases ds with
    | nil => cases hds
    | cons d ds => exact hds
  unfold startsNumber at h
  split at h
  · exact hdigit _ h
  · next cs =>
    rcases Bool.or_eq_true _ _ ▸ h with h | h
    · simp [startsNumber,hdigit _ h]
    · cases cs with
      | nil => simp at h
      | cons c cs =>
        rw [Bool.and_eq_true] at h
        have htail : digitAt (cs ++ rest) = true := hdigit cs h.2
        have hdot : c = '.' := by simpa using h.1
        rw [List.cons_append,hdot]
        change (false || ((some '.' == some '.') && digitAt (cs ++ rest))) = true
        rw [htail]
        rfl
  · next hdot hminus =>
    cases cs with
    | nil => cases h
    | cons c cs =>
      unfold startsNumber
      split
      · next heq => exact absurd rfl ((List.cons.inj heq).1 ▸ hdot cs)
      · next heq => exact absurd rfl ((List.cons.inj heq).1 ▸ hminus cs)
      · exact h

/-- A token is read back from its text. -/
lemma lexOne_text {t : Tok} (h : Lexeme t) (rest : List Char) :
    lexOne cls (t.text ++ ' ' :: rest) = .ok (some t,' ' :: rest) := by
  cases t with
  | ident s =>
    simp only [Tok.text,List.cons_append,List.append_assoc,List.nil_append]
    have hquoted := quotedText_escape '"' s.toList rest (by decide)
    rw [lexOne]
    simp only [hquoted,String.ofList_toList]
    rfl
  | str s =>
    simp only [Tok.text,List.cons_append,List.append_assoc,List.nil_append]
    have hquoted := quotedText_escape '\'' s.toList rest (by decide)
    rw [lexOne]
    simp only [hquoted,String.ofList_toList]
    rfl
  | num n =>
    obtain ⟨hstarts,htext⟩ := h
    have hne : n.toList ≠ [] := by
      intro hnil
      rw [hnil] at hstarts
      cases hstarts
    have happend := numberText_append (x := ' ') (by decide) hne rest
    rw [htext,List.nil_append] at happend
    have hstarts' := startsNumber_append hstarts (' ' :: rest)
    obtain ⟨c,cs,hcs⟩ := List.exists_cons_of_ne_nil hne
    rw [Tok.text]
    rw [hcs] at hstarts happend hstarts' ⊢
    rw [List.cons_append] at happend hstarts' ⊢
    have hc := head_number hstarts
    have hother : isWhitespace c = false ∧ isOperator c = false ∧ c ∉ ['\'','(',')',',','"'] := by
      rcases hc with hc | rfl | rfl
      · have hnat := Char.isDigit_iff_toNat.mp hc
        simp only [Char.reduceToNat] at hnat
        have hneq : ∀ d : Char, d.toNat < 48 ∨ 57 < d.toNat → c ≠ d := by
          rintro d hd rfl
          omega
        refine ⟨isWhitespace_of_ascii (by omega),?_,?_⟩
        · simp [isOperator,hneq '=' (by decide),hneq '<' (by decide),hneq '>' (by decide),hneq '!' (by decide)]
        · simp [hneq '\'' (by decide),hneq '(' (by decide),hneq ')' (by decide),hneq ',' (by decide),
            hneq '"' (by decide)]
      · decide
      · decide
    obtain ⟨hspace,hop,hnot⟩ := hother
    simp only [List.mem_cons,List.not_mem_nil,or_false,not_or] at hnot
    have hend : ((' ' :: rest).head?.any fun c => c == '.' || isWord cls c) = false := by
      simp [isWord_space]
    rw [lexOne,hspace,hop,hstarts']
    simp only [hnot.1,hnot.2.1,hnot.2.2.1,hnot.2.2.2.1,hnot.2.2.2.2,if_false,Bool.false_eq_true,if_true,happend,hend]
    rw [← hcs,String.ofList_toList]
  | op s =>
    obtain ⟨hne,hall⟩ := h
    obtain ⟨c,cs,hcs⟩ := List.exists_cons_of_ne_nil (l := s.toList) (by simpa using hne)
    obtain ⟨htake,hdrop⟩ := takeWhile_space hall (by decide) rest
    rw [Tok.text]
    rw [hcs] at hall htake hdrop ⊢
    rw [List.cons_append] at htake hdrop ⊢
    have hc : c = '=' ∨ c = '<' ∨ c = '>' ∨ c = '!' := by simpa [isOperator] using hall c (.head _)
    rw [lexOne,htake,hdrop,← hcs,String.ofList_toList]
    rcases hc with rfl | rfl | rfl | rfl <;> rfl
  | lparen => rfl
  | rparen => rfl
  | comma => rfl
  | _ => exact lexOne_word (List.cons_ne_nil _ _) (List.all_eq_true.mp (by decide)) rest

lemma text_ne_nil {t : Tok} (h : Lexeme t) : t.text ≠ [] := by
  cases t with
  | num n =>
    intro hnil
    obtain ⟨hstarts,-⟩ := h
    rw [show n.toList = [] from hnil] at hstarts
    cases hstarts
  | op s => simpa [Tok.text] using h.1
  | _ => simp [Tok.text]

lemma lexLoop_cons (n : ℕ) (c : Char) (cs : List Char) : lexLoop cls (n+1) (c :: cs) =
    (lexOne cls (c :: cs) >>= fun r => lexLoop cls n r.2 >>= fun ts => .ok (r.1.toList ++ ts)) := rfl

/-- Every sequence of tokens has a text. -/
theorem tokenize_render {toks : List Tok} (h : ∀ t ∈ toks, Lexeme t) : tokenize cls (render toks) = .ok toks := by
  have hloop : ∀ n, (render toks).length ≤ n → lexLoop cls n (render toks) = .ok toks := by
    induction toks with
    | nil =>
      intro n _
      cases n <;> rfl
    | cons t toks ih =>
      intro n hn
      obtain ⟨ht,htoks⟩ := List.forall_mem_cons.mp h
      have hrender : render (t :: toks) = t.text ++ ' ' :: render toks := by
        simp [render]
      have hpos := List.length_pos_iff.mpr (text_ne_nil ht)
      rw [hrender] at hn ⊢
      rw [List.length_append,List.length_cons] at hn
      obtain ⟨m,rfl⟩ : ∃ m, n = m+2 := ⟨n-2,by omega⟩
      have hspace : lexLoop cls (m+1) (' ' :: render toks) = lexLoop cls m (render toks) := by
        rw [lexLoop_cons]
        change (lexLoop cls m (render toks) >>= fun ts => .ok ([] ++ ts)) = _
        cases lexLoop cls m (render toks) <;> rfl
      obtain ⟨c,cs,hcs⟩ := List.exists_cons_of_ne_nil (l := t.text ++ ' ' :: render toks) (by simp)
      have hone := @lexOne_text cls _ ht (render toks)
      rw [hcs] at hone ⊢
      rw [lexLoop_cons,hone]
      change (lexLoop cls (m+1) (' ' :: render toks) >>= fun ts => .ok (t :: ts)) = _
      rw [hspace,ih htoks m (by omega)]
      rfl
  exact hloop _ le_rfl

section Turns
open Lexer

/-- A quoted text: its quotes doubled. -/
def escaped (q : Char) (s : List Char) : List Char := s.flatMap fun c => if c = q then [q,q] else [c]

@[simp] lemma escaped_nil (q : Char) : escaped q [] = [] := rfl

lemma escaped_quote (q : Char) (s : List Char) : escaped q (q :: s) = q :: q :: escaped q s := by
  rw [escaped,List.flatMap_cons,if_pos rfl]
  rfl

lemma escaped_other {q c : Char} (hc : c ≠ q) (s : List Char) : escaped q (c :: s) = c :: escaped q s := by
  rw [escaped,List.flatMap_cons,if_neg hc]
  rfl

/-- What is escaped is read as it was. -/
lemma quotedText_escaped (q : Char) (s z : List Char) :
    quotedText q (escaped q s ++ z) = (quotedText q z).map fun r => (s ++ r.1,r.2) := by
  induction s with
  | nil => simp
  | cons c s ih =>
    by_cases hc : c = q
    · rw [hc,escaped_quote,List.cons_append,List.cons_append,quotedText,if_pos rfl,if_pos rfl,ih,Option.map_map]
      rfl
    · rw [escaped_other hc,List.cons_append]
      have hcons : quotedText q (c :: (escaped q s ++ z)) =
          (quotedText q (escaped q s ++ z)).map fun r => (c :: r.1,r.2) := by
        cases escaped q s ++ z with
        | nil => simp [quotedText,hc]
        | cons d ds => rw [quotedText,if_neg hc]
      rw [hcons,ih,Option.map_map]
      rfl

/-- A quote that no other follows ends the text. -/
lemma quotedText_closed {q : Char} {z : List Char} (hz : z.head? ≠ some q) : quotedText q (q :: z) = some ([],z) := by
  cases z with
  | nil => simp [quotedText]
  | cons d z => rw [quotedText,if_pos rfl,if_neg fun h => hz (by rw [h]; rfl)]

/-- A text is read up to its closing quote, or has none. -/
lemma quotedText_cases (q : Char) (cs : List Char) :
    (∃ s rest, cs = escaped q s ++ q :: rest ∧ rest.head? ≠ some q) ∨ ∃ s, cs = escaped q s := by
  induction hn : cs.length using Nat.strong_induction_on generalizing cs with
  | _ n ih =>
    subst hn
    cases cs with
    | nil => exact .inr ⟨[],rfl⟩
    | cons c cs =>
      by_cases hc : c = q
      · rw [hc]
        by_cases hnext : cs.head? = some q
        · obtain ⟨cs,rfl⟩ : ∃ ds, cs = q :: ds := by
            cases cs with
            | nil => cases hnext
            | cons d ds => exact ⟨ds,by rw [Option.some.inj hnext]⟩
          rcases ih cs.length (by simp only [List.length_cons]; omega) cs rfl with ⟨s,rest,heq,hrest⟩ | ⟨s,heq⟩
          · exact .inl ⟨q :: s,rest,by rw [escaped_quote,heq]; rfl,hrest⟩
          · exact .inr ⟨q :: s,by rw [escaped_quote,heq]⟩
        · exact .inl ⟨[],cs,rfl,hnext⟩
      · rcases ih cs.length (by simp) cs rfl with ⟨s,rest,heq,hrest⟩ | ⟨s,heq⟩
        · exact .inl ⟨c :: s,rest,by rw [escaped_other hc,heq]; rfl,hrest⟩
        · exact .inr ⟨c :: s,by rw [escaped_other hc,heq]⟩

lemma mantissa_split (cs : List Char) : ∀ seen, (mantissa seen cs).1 ++ (mantissa seen cs).2 = cs := by
  induction cs with
  | nil =>
    intro seen
    rfl
  | cons c cs ih =>
    intro seen
    rw [mantissa]
    split
    · exact congrArg (c :: ·) (ih _)
    · rfl

lemma exponentPart_split (cs : List Char) : (exponentPart cs).1 ++ (exponentPart cs).2 = cs := by
  cases cs with
  | nil => rfl
  | cons c cs =>
    rw [exponentPart]
    split
    · have hsigns : (cs.head?.toList.filter fun s => s = '+' ∨ s = '-') ++
          cs.drop (cs.head?.toList.filter fun s => s = '+' ∨ s = '-').length = cs := by
        cases cs with
        | nil => rfl
        | cons d ds => by_cases hd : d = '+' ∨ d = '-' <;> simp [hd]
      dsimp only
      split
      · rw [List.append_assoc,List.takeWhile_append_dropWhile,List.cons_append,hsigns]
      · rfl
    · rfl

/-- A number is at the start of the text. -/
lemma numberText_split (cs : List Char) : (numberText cs).1 ++ (numberText cs).2 = cs := by
  have hsigns : (cs.head?.toList.filter fun s => s = '-') ++
      cs.drop (cs.head?.toList.filter fun s => s = '-').length = cs := by
    cases cs with
    | nil => rfl
    | cons d ds => by_cases hd : d = '-' <;> simp [hd]
  rw [numberText]
  dsimp only
  rw [List.append_assoc,List.append_assoc,exponentPart_split,mantissa_split,hsigns]

lemma numberText_ne_nil {c : Char} {cs : List Char} (h : startsNumber (c :: cs) = true) :
    (numberText (c :: cs)).1 ≠ [] := by
  rw [numberText]
  by_cases hminus : c = '-'
  · simp [hminus]
  · have hc : c.isDigit = true ∨ c = '.' := by
      rcases head_number h with h | h | h
      · exact .inl h
      · exact .inr h
      · exact absurd h hminus
    simp [hminus,mantissa,hc]

/-- The lexer takes a character at least. -/
lemma lexOne_takes : Takes (lexOne cls) := by
  rintro cs t rest hne hone
  obtain ⟨c,cs,rfl⟩ := List.exists_cons_of_ne_nil hne
  have hquoted : ∀ q s rest, quotedText q cs = some (s,rest) → ∃ taken, taken ≠ [] ∧ c :: cs = taken ++ rest := by
    intro q s rest h
    rcases quotedText_cases q cs with ⟨s',rest',heq,hrest⟩ | ⟨s',heq⟩
    · rw [heq,quotedText_escaped,quotedText_closed hrest] at h
      have hr := (Prod.mk.inj (Option.some.inj h)).2
      exact ⟨c :: escaped q s' ++ [q],List.cons_ne_nil _ _,by simp [heq,← hr]⟩
    · rw [heq,← List.append_nil (escaped q s'),quotedText_escaped] at h
      cases h
  have hwhile : ∀ p : Char → Bool, p c = true → ∃ taken, taken ≠ [] ∧ c :: cs = taken ++ (c :: cs).dropWhile p := by
    intro p hp
    refine ⟨(c :: cs).takeWhile p,?_,(List.takeWhile_append_dropWhile).symm⟩
    rw [List.takeWhile_cons,if_pos hp]
    exact List.cons_ne_nil _ _
  have hsingle : ∃ taken, taken ≠ [] ∧ c :: cs = taken ++ cs := ⟨[c],List.cons_ne_nil _ _,rfl⟩
  rw [lexOne] at hone
  split at hone
  · cases hone
    exact hsingle
  split at hone
  · split at hone
    · cases hone
    · next buf rest' hq =>
      cases hone
      exact hquoted _ _ _ hq
  split at hone
  · cases hone
    exact hsingle
  split at hone
  · cases hone
    exact hsingle
  split at hone
  · cases hone
    exact hsingle
  split at hone
  · next hop =>
    cases hone
    exact hwhile isOperator hop
  split at hone
  · split at hone
    · cases hone
    · next buf rest' hq =>
      cases hone
      exact hquoted _ _ _ hq
  split at hone
  · next hstarts =>
    dsimp only at hone
    split at hone
    · cases hone
    · cases hone
      exact ⟨_,numberText_ne_nil hstarts,(numberText_split _).symm⟩
  split at hone
  · next hword =>
    cases hone
    refine hwhile (isWord cls) ?_
    rw [isWord]
    grind
  · cases hone

/-- No token but a quoted one goes on with it. -/
structure EndsToken (cls : CharClass) (x : Char) : Prop where
  number : EndsNumber x
  word : isWord cls x = false
  operator : isOperator x = false

lemma startsNumber_cut {x : Char} (hx : EndsNumber x) (c : Char) (cs rest : List Char) :
    startsNumber (c :: (cs ++ x :: rest)) = startsNumber (c :: cs) := by
  have hdot : x ≠ '.' := fun h => hx.2 (by simp [h])
  by_cases hc : c = '.'
  · rw [hc]
    exact digitAt_append hx cs rest
  · by_cases hminus : c = '-'
    · rw [hminus,startsNumber,startsNumber,digitAt_append hx]
      cases cs with
      | nil => simp [digitAt,hdot]
      | cons d ds =>
        rw [List.cons_append,List.tail_cons,digitAt_append hx]
        rfl
    · have hhead : ∀ ds : List Char, startsNumber (c :: ds) = c.isDigit := by
        intro ds
        unfold startsNumber
        split
        · next heq => exact absurd (List.cons.inj heq).1 hc
        · next heq => exact absurd (List.cons.inj heq).1 hminus
        · rfl
      rw [hhead,hhead]

/-- Outside quotes a token does not depend on what stands after its end. -/
lemma lexOne_append {c x : Char} (hc : c ≠ '\'') (hc' : c ≠ '"') (hx : EndsToken cls x) (cs rest : List Char) :
    lexOne cls (c :: (cs ++ x :: rest)) = (lexOne cls (c :: cs)).map fun r => (r.1,r.2 ++ x :: rest) := by
  have hop := takeWhile_append hx.operator (c :: cs) rest
  have hword := takeWhile_append hx.word (c :: cs) rest
  have hnum := numberText_append hx.number (List.cons_ne_nil c cs) rest
  have hstarts := startsNumber_cut hx.number c cs rest
  have hend : ((numberText (c :: cs)).2 ++ x :: rest).head?.any (fun d => d == '.' || isWord cls d) =
      (numberText (c :: cs)).2.head?.any (fun d => d == '.' || isWord cls d) := by
    have hdot : x ≠ '.' := fun h => hx.number.2 (by simp [h])
    cases (numberText (c :: cs)).2 with
    | nil => simp [hdot,hx.word]
    | cons d ds => rfl
  rw [List.cons_append] at hop hword hnum
  rw [lexOne,lexOne,hop.1,hop.2,hword.1,hword.2,hnum,hstarts]
  simp only [hend,if_neg hc,if_neg hc']
  split
  · rfl
  split
  · rfl
  split
  · rfl
  split
  · rfl
  split
  · rfl
  split
  · split <;> rfl
  split
  · rfl
  · rfl

lemma tokenize_eq_scan (s : List Char) : tokenize cls s = scan (lexOne cls) .fuel s := by
  have hloop : ∀ n cs, lexLoop cls n cs = loop (lexOne cls) .fuel n cs := by
    intro n
    induction n with
    | zero =>
      intro cs
      cases cs <;> rfl
    | succ n ih =>
      intro cs
      cases cs with
      | nil => rfl
      | cons c cs =>
        rw [lexLoop_cons,loop_cons]
        simp only [ih]
  exact hloop s.length s

end Turns

end WhereSql
end ElectricCircuits
