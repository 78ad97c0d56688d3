import ElectricCircuits.Lib.Delimited
import ElectricCircuits.Lib.SqlExpr
import Mathlib.Data.List.TakeWhile

/-! A condition is read back off its text, and its numbered placeholders off the values bound to them: the
tokens of a text first, then the condition of these tokens. -/
namespace SqlExpr

/-- What may follow a token of letters or digits. -/
def Ends (cs : List Char) : Prop := ∀ c ∈ cs.head?, c = ' ' ∨ c = ')' ∨ c = ':'

lemma takeWhile_ends {p : Char → Bool} {cs : List Char} (hp : p ' ' = false ∧ p ')' = false ∧ p ':' = false)
    (hcs : Ends cs) (w : List Char) :
    (w ++ cs).takeWhile p = w.takeWhile p ∧ (w ++ cs).dropWhile p = w.dropWhile p ++ cs := by
  induction w with
  | nil =>
    cases cs with
    | nil => exact ⟨rfl,rfl⟩
    | cons c cs =>
      have hc : p c = false := by
        rcases hcs c rfl with rfl | rfl | rfl
        · exact hp.1
        · exact hp.2.1
        · exact hp.2.2
      rw [List.nil_append,List.takeWhile_cons,List.dropWhile_cons,hc]
      exact ⟨rfl,rfl⟩
  | cons d w ih =>
    rw [List.cons_append,List.takeWhile_cons,List.takeWhile_cons,List.dropWhile_cons,List.dropWhile_cons,
      ih.1,ih.2]
    split <;> exact ⟨rfl,rfl⟩

lemma digits_ends {cs : List Char} (hcs : Ends cs) (w : List Char) :
    (w ++ cs).takeWhile Char.isDigit = w.takeWhile Char.isDigit ∧
      (w ++ cs).dropWhile Char.isDigit = w.dropWhile Char.isDigit ++ cs :=
  takeWhile_ends ⟨by decide,by decide,by decide⟩ hcs w

lemma fraction_ends {cs : List Char} (hcs : Ends cs) (w : List Char) :
    fraction (w ++ cs) = ((fraction w).1,(fraction w).2 ++ cs) := by
  cases w with
  | nil =>
    cases cs with
    | nil => rfl
    | cons c cs =>
      have hc : c ≠ '.' := by
        rintro rfl
        simpa using hcs '.' rfl
      change fraction (c :: cs) = ([],c :: cs)
      rw [fraction,if_neg hc]
  | cons c w =>
    rw [List.cons_append,fraction,fraction,(digits_ends hcs w).1,(digits_ends hcs w).2]
    split <;> rfl

lemma exponent_ends {cs : List Char} (hcs : Ends cs) (w : List Char) :
    exponent (w ++ cs) = ((exponent w).1,(exponent w).2 ++ cs) := by
  have hno : ∀ c cs', cs = c :: cs' → ¬(c = 'e' ∨ c = 'E') ∧ ¬(c = '+' ∨ c = '-') := by
    rintro c cs' rfl
    rcases hcs c rfl with rfl | rfl | rfl <;> decide
  cases w with
  | nil =>
    cases cs with
    | nil => rfl
    | cons c cs =>
      change exponent (c :: cs) = ([],c :: cs)
      rw [exponent,if_neg fun h => (hno c cs rfl).1 h.1]
  | cons c w =>
    -- a sign of the exponent is not taken from what follows the number
    have hsigns : ((w ++ cs).head?.toList.filter fun s => s = '+' ∨ s = '-') =
        w.head?.toList.filter fun s => s = '+' ∨ s = '-' := by
      cases w with
      | cons d w => rfl
      | nil =>
        cases cs with
        | nil => rfl
        | cons d cs => simp [(hno d cs rfl).2]
    have hlength : (w.head?.toList.filter fun s => s = '+' ∨ s = '-').length ≤ w.length := by
      refine (List.length_filter_le _ _).trans ?_
      cases w <;> simp
    rw [List.cons_append,exponent,exponent,hsigns,List.drop_append_of_le_length hlength,
      (digits_ends hcs _).1,(digits_ends hcs _).2]
    split <;> rfl

lemma numeral_ends {cs : List Char} (hcs : Ends cs) (w : List Char) :
    numeral (w ++ cs) = ((numeral w).1,(numeral w).2 ++ cs) := by
  rw [numeral,numeral,(digits_ends hcs w).1,(digits_ends hcs w).2,fraction_ends hcs,exponent_ends hcs]

/-- Digits are a numeral, also with a point among them. -/
lemma numeral_digits {w f : List Char} (hw : ∀ c ∈ w, c.isDigit = true) (hf : ∀ c ∈ f, c.isDigit = true) :
    numeral w = (w,[]) ∧ numeral (w ++ '.' :: f) = (w ++ '.' :: f,[]) := by
  have hpoint : (w ++ '.' :: f).takeWhile Char.isDigit = w ∧ (w ++ '.' :: f).dropWhile Char.isDigit = '.' :: f := by
    rw [List.takeWhile_append_of_pos hw,List.dropWhile_append_of_pos hw]
    exact ⟨List.append_nil w,rfl⟩
  refine ⟨?_,?_⟩
  · rw [numeral,List.dropWhile_eq_nil_iff.mpr hw,List.takeWhile_eq_self_iff.mpr hw]
    simp [fraction,exponent]
  · rw [numeral,hpoint.1,hpoint.2,fraction,if_pos rfl,List.dropWhile_eq_nil_iff.mpr hf,
      List.takeWhile_eq_self_iff.mpr hf]
    simp [exponent]

/-- A text is a sequence of tokens: each is read off its own letters, whatever stands behind them. -/
inductive Spells : List Char → List Tok → Prop where
  | nil : Spells [] []
  | space {cs : List Char} {ts : List Tok} (h : Spells cs ts) : Spells (' ' :: cs) ts
  | tok {w cs : List Char} {t : Tok} {ts : List Tok} (hw : w ≠ []) (hlex : lexOne (w ++ cs) = some (some t,cs))
    (h : Spells cs ts) : Spells (w ++ cs) (t :: ts)

lemma lex_cons (n : ℕ) (c : Char) (cs : List Char) : lex (n+1) (c :: cs) = (do
    let (t,rest) ← lexOne (c :: cs)
    return t.toList ++ (← lex n rest)) := rfl

lemma Spells.lex {cs : List Char} {ts : List Tok} (h : Spells cs ts) : ∀ n, cs.length ≤ n → lex n cs = some ts := by
  induction h with
  | nil => exact fun n _ => by cases n <;> rfl
  | @space cs ts _ ih =>
    intro n hn
    obtain ⟨n,rfl⟩ : ∃ m, n = m+1 := Nat.exists_eq_add_one.mpr (Nat.lt_of_lt_of_le (Nat.succ_pos _) hn)
    rw [lex_cons,lexOne,if_pos rfl]
    simp [ih n (by simpa using hn)]
  | @tok w cs t ts hw hlex _ ih =>
    intro n hn
    obtain ⟨c,w,rfl⟩ := List.exists_cons_of_ne_nil hw
    obtain ⟨n,rfl⟩ : ∃ m, n = m+1 := Nat.exists_eq_add_one.mpr (Nat.lt_of_lt_of_le (Nat.succ_pos _) hn)
    have hcs : cs.length ≤ n := by
      simp only [List.length_append,List.length_cons] at hn
      omega
    rw [List.cons_append] at hlex ⊢
    rw [lex_cons,hlex]
    simp [ih n hcs]

section
variable {cs : List Char} {ts : List Tok}

lemma scanQuoted_escape (s : List Char) (hcs : cs.head? ≠ some '"') :
    scanQuoted ((s.flatMap fun c => if c = '"' then ['"','"'] else [c]) ++ '"' :: cs) = some (s,cs) := by
  induction s with
  | nil =>
    cases cs with
    | nil => rfl
    | cons d cs =>
      have hd : d ≠ '"' := by simpa using hcs
      simp [scanQuoted,hd]
  | cons c s ih =>
    rw [List.flatMap_cons,List.append_assoc]
    by_cases hc : c = '"'
    · rw [if_pos hc]
      simp only [List.cons_append,List.nil_append,scanQuoted,if_true]
      rw [ih,hc]
      rfl
    · rw [if_neg hc]
      obtain ⟨d,ds,hd⟩ := List.exists_cons_of_ne_nil
        (l := (s.flatMap fun c => if c = '"' then ['"','"'] else [c]) ++ '"' :: cs) (by simp)
      rw [hd] at ih ⊢
      simp only [List.cons_append,List.nil_append,scanQuoted,if_neg hc,ih]
      rfl

lemma Spells.quoted (s : String) (hcs : cs.head? ≠ some '"') (h : Spells cs ts) :
    Spells (quotedText s ++ cs) (.quoted s :: ts) := by
  refine .tok (List.cons_ne_nil _ _) ?_ h
  have hscan := scanQuoted_escape s.toList hcs
  rw [quotedText,List.cons_append,List.cons_append,List.append_assoc,List.singleton_append,lexOne,if_neg (by decide),
    if_pos rfl,hscan,Option.map_some,String.ofList_toList]

lemma Ends.notQuote (hcs : Ends cs) : cs.head? ≠ some '"' := fun h => by simpa using hcs '"' h

/-- A letter or a digit starts no other token. -/
lemma lexOne_letter {c : Char} (hc : wordChar c = true) (cs : List Char) : lexOne (c :: cs) =
    if c.isDigit then some (some (.number (String.ofList (numeral (c :: cs)).1)),(numeral (c :: cs)).2)
    else some (some (word ((c :: cs).takeWhile wordChar)),(c :: cs).dropWhile wordChar) := by
  have hne : ∀ d : Char, wordChar d = false → c ≠ d := by
    rintro d hd rfl
    rw [hc] at hd
    cases hd
  rw [lexOne,if_neg (hne _ (by decide)),if_neg (hne _ (by decide)),if_neg (hne _ (by decide)),
    if_neg (hne _ (by decide)),if_neg (hne _ (by decide)),if_neg (hne _ (by decide)),if_neg (hne _ (by decide))]
  by_cases hd : c.isDigit = true
  · rw [if_pos hd,if_pos hd]
  · have hstart : wordStart c = true := by
      rw [wordChar,Bool.or_eq_true] at hc
      exact hc.resolve_right hd
    rw [if_neg hd,if_neg hd,if_pos hstart]

lemma Spells.word {w : List Char} (hstart : w.head?.any wordStart = true) (hw : ∀ c ∈ w, wordChar c = true)
    (hcs : Ends cs) (h : Spells cs ts) : Spells (w ++ cs) (SqlExpr.word w :: ts) := by
  cases w with
  | nil => cases hstart
  | cons c w =>
    have hc : wordStart c = true := hstart
    have hdigit : ¬c.isDigit = true := by
      intro hd
      have hbounds := Char.isDigit_iff_toNat.mp hd
      simp only [Char.reduceToNat] at hbounds
      rw [wordStart,Bool.or_eq_true] at hc
      rcases hc with hc | hc
      · have halpha := Delimited.toNat_of_isAlpha hc
        omega
      · have hc : c = '_' := by simpa using hc
        rw [hc] at hd
        cases hd
    obtain ⟨htake,hdrop⟩ := takeWhile_ends (p := wordChar) ⟨by decide,by decide,by decide⟩ hcs (c :: w)
    refine .tok (List.cons_ne_nil _ _) ?_ h
    rw [List.cons_append,lexOne_letter (hw c (.head _)),if_neg hdigit,← List.cons_append,htake,hdrop,
      List.takeWhile_eq_self_iff.mpr hw,List.dropWhile_eq_nil_iff.mpr hw,List.nil_append]

lemma Spells.number {s : String} (hs : (Atom.number (π := ℕ) s).Ok) (hcs : Ends cs) (h : Spells cs ts) :
    Spells (s.toList ++ cs) (.number s :: ts) := by
  obtain ⟨hdigit,hnum⟩ := hs
  cases hl : s.toList with
  | nil =>
    rw [hl] at hdigit
    cases hdigit
  | cons c w =>
    rw [hl] at hdigit hnum
    have hc : c.isDigit = true := hdigit
    refine .tok (List.cons_ne_nil _ _) ?_ h
    have hword : wordChar c = true := by rw [wordChar,hc,Bool.or_true]
    rw [List.cons_append,lexOne_letter hword,if_pos hc,← List.cons_append,numeral_ends hcs,hnum,← hl,
      String.ofList_toList]
    rfl

lemma Spells.param (k : ℕ) (hcs : Ends cs) (h : Spells cs ts) :
    Spells (('$' :: Nat.toDigits 10 k) ++ cs) (.param k :: ts) := by
  have hdigit : ∀ c ∈ Nat.toDigits 10 k, c.isDigit = true :=
    fun c hc => Nat.isDigit_of_mem_toDigits (by decide) (by decide) hc
  obtain ⟨htake,hdrop⟩ := digits_ends hcs (Nat.toDigits 10 k)
  rw [List.takeWhile_eq_self_iff.mpr hdigit] at htake
  rw [List.dropWhile_eq_nil_iff.mpr hdigit,List.nil_append] at hdrop
  refine .tok (List.cons_ne_nil _ _) ?_ h
  rw [List.cons_append,lexOne]
  simp only [htake,hdrop,Nat.toDigits_ne_nil,Nat.ofDigitChars_ten_toDigits,if_false]
  simp

lemma opChar_notWord {c : Char} (h : opChar c = true) : c.isDigit = false ∧ wordStart c = false := by
  have hall : ['+','-','*','/','<','>','=','~','!','@','#','%','^','&','|','?'].all
      (fun c => c.isDigit = false ∧ wordStart c = false) = true := by decide
  exact of_decide_eq_true (List.all_eq_true.mp hall c (by simpa [opChar] using h))

lemma Spells.op {s : String} (hs : s.toList ≠ []) (hall : s.toList.all opChar = true)
    (hcs : ∀ c ∈ cs.head?, opChar c = false) (h : Spells cs ts) : Spells (s.toList ++ cs) (.op s :: ts) := by
  have hop := List.all_eq_true.mp hall
  have htake : (s.toList ++ cs).takeWhile opChar = s.toList := by
    rw [List.takeWhile_append_of_pos hop]
    cases cs with
    | nil => exact List.append_nil _
    | cons c cs => rw [List.takeWhile_cons,hcs c rfl,if_neg (by decide),List.append_nil]
  have hdrop : (s.toList ++ cs).dropWhile opChar = cs := by
    rw [List.dropWhile_append_of_pos hop]
    cases cs with
    | nil => rfl
    | cons c cs => rw [List.dropWhile_cons,hcs c rfl,if_neg (by decide)]
  refine .tok hs ?_ h
  obtain ⟨c,w,hl⟩ := List.exists_cons_of_ne_nil hs
  have hc : opChar c = true := hop c (by rw [hl]; exact .head _)
  have hne : ∀ d : Char, opChar d = false → c ≠ d := by
    rintro d hd rfl
    rw [hc] at hd
    cases hd
  rw [hl,List.cons_append] at htake hdrop ⊢
  rw [lexOne,if_neg (hne _ (by decide)),if_neg (hne _ (by decide)),if_neg (hne _ (by decide)),
    if_neg (hne _ (by decide)),if_neg (hne _ (by decide)),if_neg (hne _ (by decide)),if_neg (hne _ (by decide)),
    if_neg (by rw [(opChar_notWord hc).1]; decide),if_neg (by rw [(opChar_notWord hc).2]; decide),if_pos hc,
    htake,hdrop,← hl,String.ofList_toList]

lemma Spells.lparen (h : Spells cs ts) : Spells ('(' :: cs) (.lparen :: ts) :=
  .tok (w := ['(']) (List.cons_ne_nil _ _) rfl h

lemma Spells.rparen (h : Spells cs ts) : Spells (')' :: cs) (.rparen :: ts) :=
  .tok (w := [')']) (List.cons_ne_nil _ _) rfl h

lemma Spells.dot (h : Spells cs ts) : Spells ('.' :: cs) (.dot :: ts) :=
  .tok (w := ['.']) (List.cons_ne_nil _ _) rfl h

lemma Spells.cast (h : Spells cs ts) : Spells (':' :: ':' :: cs) (.cast :: ts) :=
  .tok (w := [':',':']) (List.cons_ne_nil _ _) rfl h

/-- A word of letters. -/
lemma Spells.letters {w : List Char} {t : Tok} (hw : w.head?.any wordStart = true ∧ w.all wordChar = true)
    (ht : SqlExpr.word w = t) (hcs : Ends cs) (h : Spells cs ts) : Spells (w ++ cs) (t :: ts) :=
  ht ▸ h.word hw.1 (List.all_eq_true.mp hw.2) hcs

lemma Ends.space (cs : List Char) : Ends (' ' :: cs) := by
  rintro c ⟨⟩
  exact .inl rfl

lemma Ends.rparen (cs : List Char) : Ends (')' :: cs) := by
  rintro c ⟨⟩
  exact .inr (.inl rfl)

lemma Ends.colon (cs : List Char) : Ends (':' :: cs) := by
  rintro c ⟨⟩
  exact .inr (.inr rfl)

lemma Spells.atom {a : Atom ℕ} (ha : a.Ok) (hcs : Ends cs) (h : Spells cs ts) :
    Spells (a.text ++ cs) (a.tok :: ts) := by
  cases a with
  | column s => exact h.quoted s hcs.notQuote
  | bare s => exact h.letters ⟨ha.1,List.all_eq_true.mpr ha.2.1⟩ ha.2.2 hcs
  | param k => exact h.param k hcs
  | number s => exact h.number ha hcs
  | bool b =>
    cases b with
    | false => exact h.letters (by decide) (by rfl) hcs
    | true => exact h.letters (by decide) (by rfl) hcs
  | null => exact h.letters (by decide) (by rfl) hcs

lemma Spells.suffixes (ss : List Suffix) (hcs : Ends cs) (h : Spells cs ts) :
    Ends (ss.flatMap Suffix.chars ++ cs) ∧ Spells (ss.flatMap Suffix.chars ++ cs) (ss.flatMap Suffix.toks ++ ts) := by
  induction ss with
  | nil => exact ⟨hcs,h⟩
  | cons s ss ih =>
    obtain ⟨hends,hspells⟩ := ih
    rw [List.flatMap_cons,List.append_assoc,List.flatMap_cons,List.append_assoc]
    cases s with
    | text => exact ⟨.colon _,.cast (hspells.letters (w := ['t','e','x','t']) (by decide) (by rfl) hends)⟩
    | cast type => exact ⟨.colon _,.cast (hspells.quoted type hends.notQuote)⟩
    | collate name =>
      have hname := (hspells.quoted name hends.notQuote).space
      exact ⟨.space _,.space (hname.letters (w := ['c','o','l','l','a','t','e']) (by decide) (by rfl) (.space _))⟩

/-- A scalar starts with no operator. -/
lemma Atom.head_notOp {a : Atom ℕ} (ha : a.Ok) (cs : List Char) :
    ∀ c ∈ (a.text ++ cs).head?, opChar c = false := by
  have hword : ∀ {p : Char → Bool} {w : List Char}, (∀ c, opChar c = true → p c = false) → w.head?.any p = true →
      ∀ c ∈ (w ++ cs).head?, opChar c = false := by
    intro p w hp hw c hc
    cases w with
    | nil => cases hw
    | cons d w =>
      obtain rfl : d = c := by simpa using hc
      have hd : p d = true := hw
      by_contra hop
      rw [hp d (by simpa using hop)] at hd
      cases hd
  cases a with
  | bare s => exact hword (fun c hc => (opChar_notWord hc).2) ha.1
  | number s => exact hword (fun c hc => (opChar_notWord hc).1) ha.1
  | bool b => cases b <;> (rintro c ⟨⟩; rfl)
  | _ =>
    rintro c ⟨⟩
    rfl

lemma Spells.operand {a : Operand ℕ} (ha : a.Ok) (hcs : Ends cs) (h : Spells cs ts) :
    Spells (a.text ++ cs) (a.toks ++ ts) := by
  cases a with
  | neg a => exact (h.atom ha hcs).op (s := "-") (by decide) (by decide) (Atom.head_notOp ha cs)
  | plain a ss =>
    obtain ⟨hends,hspells⟩ := h.suffixes ss hcs
    rw [Operand.text,List.append_assoc]
    exact hspells.atom ha hends

lemma Spells.comparator (op : Comparator) (h : Spells cs ts) :
    Spells (op.text ++ ' ' :: cs) (op.tok :: ts) := by
  cases op with
  | like => exact h.space.letters (by decide) (by rfl) (.space _)
  | eq => exact h.space.op (s := "=") (by decide) (by decide) (by simp [opChar])
  | neq => exact h.space.op (s := "<>") (by decide) (by decide) (by simp [opChar])
  | lt => exact h.space.op (s := "<") (by decide) (by decide) (by simp [opChar])
  | lte => exact h.space.op (s := "<=") (by decide) (by decide) (by simp [opChar])
  | gt => exact h.space.op (s := ">") (by decide) (by decide) (by simp [opChar])
  | gte => exact h.space.op (s := ">=") (by decide) (by decide) (by simp [opChar])

lemma Spells.select (negated : Bool) (project schema table : String) (hcs : Ends cs) (h : Spells cs ts) :
    Ends (selectText negated project schema table ++ cs) ∧
      Spells (selectText negated project schema table ++ cs) (selectToks negated project schema table ++ ts) := by
  have hnames := ((h.quoted table hcs.notQuote).dot).quoted schema (by simp)
  have hfrom := (hnames.space.letters (w := ['F','R','O','M']) (t := .kw .from_) (by decide) (by rfl) (.space _)).space
  have hproject := (hfrom.quoted project (by simp)).space
  have hselect := hproject.letters (w := ['S','E','L','E','C','T']) (t := .kw .select) (by decide) (by rfl) (.space _)
  have hin := (hselect.lparen.space.letters (w := ['I','N']) (t := .kw .in_) (by decide) (by rfl) (.space _)).space
  cases negated with
  | false => exact ⟨.space _,by simpa [selectText,selectToks] using hin⟩
  | true =>
    have hnot := (hin.letters (w := ['N','O','T']) (t := .kw .not) (by decide) (by rfl) (.space _)).space
    exact ⟨.space _,by simpa [selectText,selectToks] using hnot⟩

lemma Spells.expr {L : Level} {e : Expr ℕ} (he : At L e) : ∀ {cs : List Char} {ts : List Tok}, Ends cs →
    Spells cs ts → Spells (e.text ++ cs) (e.toks ++ ts) := by
  induction he with
  | ofConjunction _ ih => exact ih
  | ofNegation _ ih => exact ih
  | ofTest _ ih => exact ih
  | @or e f _ _ ihe ihf =>
    intro cs ts hcs h
    have hor := ((ihf hcs h).space.letters (w := ['O','R']) (t := .kw .or) (by decide) (by rfl) (.space _)).space
    simpa [Expr.text,Expr.toks] using ihe (.space _) hor
  | @and e f _ _ ihe ihf =>
    intro cs ts hcs h
    have hand := ((ihf hcs h).space.letters (w := ['A','N','D']) (t := .kw .and) (by decide) (by rfl) (.space _)).space
    simpa [Expr.text,Expr.toks] using ihe (.space _) hand
  | not _ ih =>
    intro cs ts hcs h
    exact (ih hcs h).space.letters (w := ['N','O','T']) (t := .kw .not) (by decide) (by rfl) (.space _)
  | paren _ ih =>
    intro cs ts hcs h
    simpa [Expr.text,Expr.toks] using (ih (.rparen _) h.rparen).lparen
  | @compare a b op ha hb =>
    intro cs ts hcs h
    simpa [Expr.text,Expr.toks] using ((h.operand hb hcs).comparator op).space.operand ha (.space _)
  | @isNull a negated ha =>
    intro cs ts hcs h
    have hnull := h.letters (w := ['N','U','L','L']) (t := .kw .null) (by decide) (by rfl) hcs
    cases negated with
    | false =>
      have his := hnull.space.letters (w := ['I','S']) (t := .kw .is) (by decide) (by rfl) (.space _)
      simpa [Expr.text,Expr.toks] using his.space.operand ha (.space _)
    | true =>
      have hnot := hnull.space.letters (w := ['N','O','T']) (t := .kw .not) (by decide) (by rfl) (.space _)
      have his := hnot.space.letters (w := ['I','S']) (t := .kw .is) (by decide) (by rfl) (.space _)
      simpa [Expr.text,Expr.toks] using his.space.operand ha (.space _)
  | @inSelect a negated project schema table ha =>
    intro cs ts hcs h
    obtain ⟨hends,hselect⟩ := h.rparen.select negated project schema table (.rparen _)
    simpa [Expr.text,Expr.toks] using hselect.operand ha hends
  | @inSelectWhere a w negated project schema table ha _ ih =>
    intro cs ts hcs h
    have hwhere := ((ih (.rparen _) h.rparen).space.letters (w := ['W','H','E','R','E']) (t := .kw .where_)
      (by decide) (by rfl) (.space _)).space
    obtain ⟨hends,hselect⟩ := hwhere.select negated project schema table (.space _)
    simpa [Expr.text,Expr.toks] using hselect.operand ha hends
  | const b =>
    intro cs ts hcs h
    cases b with
    | false => exact h.letters (by decide) (by rfl) hcs
    | true => exact h.letters (by decide) (by rfl) hcs

end

@[simp] lemma atom_tok (a : Atom ℕ) (ts : List Tok) : atom (a.tok :: ts) = some (a,ts) := by
  cases a with
  | bool b => cases b <;> rfl
  | _ => rfl

lemma suffixes_toks (ss : List Suffix) {ts : List Tok} (hts : ts.head? ≠ some .cast ∧ ts.head? ≠ some (.kw .collate)) :
    suffixes (ss.flatMap Suffix.toks ++ ts) = (ss,ts) := by
  induction ss with
  | nil =>
    rw [List.flatMap_nil,List.nil_append,suffixes.eq_def]
    split
    · exact absurd rfl hts.1
    · exact absurd rfl hts.1
    · exact absurd rfl hts.2
    · rfl
  | cons s ss ih =>
    rw [List.flatMap_cons,List.append_assoc]
    cases s <;> simp [Suffix.toks,suffixes,ih]

lemma operand_toks (a : Operand ℕ) {ts : List Tok} (hts : ts.head? ≠ some .cast ∧ ts.head? ≠ some (.kw .collate)) :
    operand (a.toks ++ ts) = some (a,ts) := by
  cases a with
  | neg a => simp [Operand.toks,operand]
  | plain a ss =>
    have hop : ∀ s, a.tok ≠ .op s := by
      rintro s
      cases a with
      | bool b => cases b <;> nofun
      | _ => nofun
    rw [Operand.toks,List.cons_append,operand,atom_tok,Option.map_some,suffixes_toks ss hts]
    exact fun s ts' h => hop s (List.cons.inj h).1

/-- What may follow a condition at a level. -/
def Follows (L : Level) (ts : List Tok) : Prop :=
  ∀ t ∈ ts.head?, t = .rparen ∨ (t = .kw .or ∧ L ≠ .disjunction) ∨ (t = .kw .and ∧ (L = .negation ∨ L = .test))

lemma Follows.mono {L M : Level} {ts : List Tok} (h : Follows L ts)
    (hor : L ≠ .disjunction → M ≠ .disjunction) (hand : L = .negation ∨ L = .test → M = .negation ∨ M = .test) :
    Follows M ts := by
  intro t ht
  rcases h t ht with h | h | h
  · exact .inl h
  · exact .inr (.inl ⟨h.1,hor h.2⟩)
  · exact .inr (.inr ⟨h.1,hand h.2⟩)

lemma Follows.notSuffix {L : Level} {ts : List Tok} (h : Follows L ts) :
    ts.head? ≠ some .cast ∧ ts.head? ≠ some (.kw .collate) := by
  refine ⟨fun ht => ?_,fun ht => ?_⟩
  · simpa using h _ ht
  · simpa using h _ ht

/-- How many turns a level takes before the next one. -/
def Level.rank : Level → ℕ
  | .disjunction => 3
  | .conjunction => 2
  | .negation => 1
  | .test => 0

lemma At.head {L : Level} {e : Expr ℕ} (h : At L e) (hL : L = .test) (ts : List Tok) :
    (e.toks ++ ts).head? ≠ some (.kw .not) := by
  have hatom : ∀ a : Atom ℕ, a.tok ≠ .kw .not := by
    intro a
    cases a with
    | bool b => cases b <;> nofun
    | _ => nofun
  have hoperand : ∀ (a : Operand ℕ) (us : List Tok), (a.toks ++ us).head? ≠ some (.kw .not) := by
    intro a us
    cases a with
    | neg a => simp [Operand.toks]
    | plain a ss => simpa [Operand.toks] using hatom a
  cases h with
  | paren => simp [Expr.toks]
  | compare | isNull | inSelect | inSelectWhere =>
    simp only [Expr.toks,List.append_assoc]
    exact hoperand _ _
  | const b => cases b <;> simp [Expr.toks]
  | _ => cases hL

lemma condition_negation {n : ℕ} {ts : List Tok} (h : ts.head? ≠ some (.kw .not)) :
    condition (n+1) .negation ts = condition n .test ts := by
  rw [condition]
  rintro us rfl
  exact h rfl

lemma condition_test {n : ℕ} (a : Operand ℕ) {ts : List Tok}
    (hts : ts.head? ≠ some .cast ∧ ts.head? ≠ some (.kw .collate)) :
    condition (n+1) .test (a.toks ++ ts) = testTail (condition n .disjunction) a ts := by
  rw [condition,operand_toks a hts]
  · rfl
  · intro us h
    cases a with
    | neg a => cases h
    | plain a ss =>
      cases a with
      | bool b => cases b <;> cases h
      | _ => cases h

lemma testTail_compare (rec : List Tok → Option (Expr ℕ × List Tok)) (a b : Operand ℕ) (op : Comparator)
    {ts : List Tok} (hts : ts.head? ≠ some .cast ∧ ts.head? ≠ some (.kw .collate)) :
    testTail rec a (op.tok :: (b.toks ++ ts)) = some (.compare a op b,ts) := by
  cases op <;> simp [Comparator.tok,testTail,Comparator.ofOp,operand_toks b hts]

lemma testTail_const (rec : List Tok → Option (Expr ℕ × List Tok)) (b : Bool) {L : Level} {ts : List Tok}
    (hts : Follows L ts) : testTail rec (.plain (.bool b) []) ts = some (.const b,ts) := by
  cases ts with
  | nil => rfl
  | cons t ts =>
    rcases hts t rfl with rfl | ⟨rfl,-⟩ | ⟨rfl,-⟩ <;> rfl

/-- The tokens of a condition, before what may follow them, are read as this condition. -/
theorem At.parsed {L : Level} {e : Expr ℕ} (h : At L e) : ∀ n ts, 4*e.toks.length+L.rank < n → Follows L ts →
    condition n L (e.toks ++ ts) = some (e,ts) := by
  induction h with
  | @or e f _ _ ihe ihf =>
    intro n ts hn hts
    obtain ⟨n,rfl⟩ : ∃ m, n = m+1 := Nat.exists_eq_add_one.mpr (Nat.zero_lt_of_lt hn)
    simp only [Expr.toks,List.length_append,List.length_cons,Level.rank] at hn
    have hor : Follows .conjunction (.kw .or :: (f.toks ++ ts)) := by
      rintro t ⟨⟩
      exact .inr (.inl ⟨rfl,by decide⟩)
    rw [Expr.toks,List.append_assoc,List.cons_append,condition,ihe n _ (by simp only [Level.rank]; omega) hor]
    simp [ihf n ts (by simp only [Level.rank]; omega) hts]
  | @ofConjunction e _ ih =>
    intro n ts hn hts
    obtain ⟨n,rfl⟩ : ∃ m, n = m+1 := Nat.exists_eq_add_one.mpr (Nat.zero_lt_of_lt hn)
    simp only [Level.rank] at hn
    rw [condition,ih n ts (by simp only [Level.rank]; omega) (hts.mono (by decide) (by decide))]
    cases ts with
    | nil => rfl
    | cons t ts =>
      rcases hts t rfl with rfl | ⟨-,h⟩ | ⟨-,h⟩
      · rfl
      · exact absurd rfl h
      · cases h with
        | inl h => cases h
        | inr h => cases h
  | @and e f _ _ ihe ihf =>
    intro n ts hn hts
    obtain ⟨n,rfl⟩ : ∃ m, n = m+1 := Nat.exists_eq_add_one.mpr (Nat.zero_lt_of_lt hn)
    simp only [Expr.toks,List.length_append,List.length_cons,Level.rank] at hn
    have hand : Follows .negation (.kw .and :: (f.toks ++ ts)) := by
      rintro t ⟨⟩
      exact .inr (.inr ⟨rfl,.inl rfl⟩)
    rw [Expr.toks,List.append_assoc,List.cons_append,condition,ihe n _ (by simp only [Level.rank]; omega) hand]
    simp [ihf n ts (by simp only [Level.rank]; omega) hts]
  | @ofNegation e _ ih =>
    intro n ts hn hts
    obtain ⟨n,rfl⟩ : ∃ m, n = m+1 := Nat.exists_eq_add_one.mpr (Nat.zero_lt_of_lt hn)
    simp only [Level.rank] at hn
    rw [condition,ih n ts (by simp only [Level.rank]; omega) (hts.mono (by decide) (by decide))]
    cases ts with
    | nil => rfl
    | cons t ts =>
      rcases hts t rfl with rfl | ⟨rfl,-⟩ | ⟨-,h⟩
      · rfl
      · rfl
      · cases h with
        | inl h => cases h
        | inr h => cases h
  | @not e _ ih =>
    intro n ts hn hts
    obtain ⟨n,rfl⟩ : ∃ m, n = m+1 := Nat.exists_eq_add_one.mpr (Nat.zero_lt_of_lt hn)
    simp only [Expr.toks,List.length_cons,Level.rank] at hn
    rw [Expr.toks,List.cons_append,condition,ih n ts (by simp only [Level.rank]; omega) hts]
    rfl
  | @ofTest e he ih =>
    intro n ts hn hts
    obtain ⟨n,rfl⟩ : ∃ m, n = m+1 := Nat.exists_eq_add_one.mpr (Nat.zero_lt_of_lt hn)
    simp only [Level.rank] at hn
    rw [condition_negation (he.head rfl ts)]
    exact ih n ts (by simp only [Level.rank]; omega) (hts.mono (by decide) (by decide))
  | @paren e _ ih =>
    intro n ts hn hts
    obtain ⟨n,rfl⟩ : ∃ m, n = m+1 := Nat.exists_eq_add_one.mpr (Nat.zero_lt_of_lt hn)
    simp only [Expr.toks,List.length_append,List.length_cons,List.length_nil,Level.rank] at hn
    have hclose : Follows .disjunction (.rparen :: ts) := by
      rintro t ⟨⟩
      exact .inl rfl
    rw [Expr.toks,List.cons_append,List.cons_append,List.append_assoc,List.singleton_append,condition,
      ih n _ (by simp only [Level.rank]; omega) hclose]
  | @compare a b op ha hb =>
    intro n ts hn hts
    obtain ⟨n,rfl⟩ : ∃ m, n = m+1 := Nat.exists_eq_add_one.mpr (Nat.zero_lt_of_lt hn)
    rw [Expr.toks,List.append_assoc,List.cons_append,condition_test,testTail_compare _ a b op hts.notSuffix]
    cases op <;> simp [Comparator.tok]
  | @isNull a negated ha =>
    intro n ts hn hts
    obtain ⟨n,rfl⟩ : ∃ m, n = m+1 := Nat.exists_eq_add_one.mpr (Nat.zero_lt_of_lt hn)
    simp only [Expr.toks,List.append_assoc]
    rw [condition_test a (by simp)]
    cases negated <;> rfl
  | @inSelect a negated project schema table ha =>
    intro n ts hn hts
    obtain ⟨n,rfl⟩ : ∃ m, n = m+1 := Nat.exists_eq_add_one.mpr (Nat.zero_lt_of_lt hn)
    simp only [Expr.toks,List.append_assoc]
    rw [condition_test a (by cases negated <;> simp [selectToks])]
    cases negated <;> rfl
  | @inSelectWhere a w negated project schema table ha _ ih =>
    intro n ts hn hts
    obtain ⟨n,rfl⟩ : ∃ m, n = m+1 := Nat.exists_eq_add_one.mpr (Nat.zero_lt_of_lt hn)
    simp only [Expr.toks,List.length_append,List.length_cons,List.length_nil,Level.rank] at hn
    have hclose : Follows .disjunction (.rparen :: ts) := by
      rintro t ⟨⟩
      exact .inl rfl
    have hselect : 1 ≤ (selectToks negated project schema table).length := by simp [selectToks]
    have hw := ih n (.rparen :: ts) (by simp only [Level.rank]; omega) hclose
    simp only [Expr.toks,List.append_assoc,List.cons_append,List.nil_append]
    rw [condition_test a (by cases negated <;> simp [selectToks])]
    cases negated <;> simp [selectToks,testTail,inTail,hw]
  | const b =>
    intro n ts hn hts
    obtain ⟨n,rfl⟩ : ∃ m, n = m+1 := Nat.exists_eq_add_one.mpr (Nat.zero_lt_of_lt hn)
    have htest := condition_test (n := n) (.plain (.bool b) []) hts.notSuffix
    rw [testTail_const _ b hts] at htest
    cases b <;> exact htest

/-- A condition is read off its text. -/
theorem read_text {e : Expr ℕ} (h : At .disjunction e) : read e.text = some e := by
  have hspells : Spells (e.text ++ []) (e.toks ++ []) := Spells.expr h nofun .nil
  rw [List.append_nil,List.append_nil] at hspells
  have hparsed := h.parsed (4*e.toks.length+4) [] (by simp [Level.rank]) nofun
  rw [List.append_nil] at hparsed
  rw [read,hspells.lex _ le_rfl]
  simp [hparsed]

section
variable {env : ℕ → Option String}

lemma binds_append (ps qs : List String) : ∀ k, Binds env k (ps ++ qs) ↔
    Binds env k ps ∧ Binds env (k+ps.length) qs := by
  induction ps with
  | nil => simp [Binds]
  | cons p ps ih =>
    intro k
    have hk : k+1+ps.length = k+(ps.length+1) := by omega
    rw [List.cons_append,Binds,Binds,ih,and_assoc,hk,List.length_cons]

lemma Operand.bind_numbered {a : Operand String} {k : ℕ} (h : Binds env k a.params) :
    (a.numbered k).bind env = some a := by
  have hatom : ∀ a : Atom String, Binds env k a.params → (a.numbered k).bind env = some a := by
    intro a h
    cases a with
    | param s => simpa [Atom.numbered,Atom.bind] using h.1
    | _ => rfl
  cases a with
  | neg a => rw [numbered,bind,hatom a h,Option.map_some]
  | plain a ss => rw [numbered,bind,hatom a h,Option.map_some]

/-- Bound to its own values, a condition with numbered placeholders is the condition. -/
theorem Expr.bind_numbered (e : Expr String) : ∀ k, Binds env k e.params → (e.numbered k).bind env = some e := by
  induction e with
  | compare a op b =>
    intro k h
    obtain ⟨ha,hb⟩ := (binds_append _ _ k).mp h
    rw [numbered,bind,Operand.bind_numbered ha,Operand.bind_numbered hb]
    rfl
  | isNull a negated =>
    intro k h
    rw [numbered,bind,Operand.bind_numbered h]
    rfl
  | inSelect a negated project schema table =>
    intro k h
    rw [numbered,bind,Operand.bind_numbered h]
    rfl
  | inSelectWhere a negated project schema table w ih =>
    intro k h
    obtain ⟨ha,hw⟩ := (binds_append _ _ k).mp h
    rw [numbered,bind,Operand.bind_numbered ha,ih _ hw]
    rfl
  | const b => exact fun k _ => rfl
  | paren e ih =>
    intro k h
    rw [numbered,bind,ih k h,Option.map_some]
  | not e ih =>
    intro k h
    rw [numbered,bind,ih k h,Option.map_some]
  | and e f ihe ihf =>
    intro k h
    obtain ⟨he,hf⟩ := (binds_append _ _ k).mp h
    rw [numbered,bind,ihe k he,ihf _ hf]
    rfl
  | or e f ihe ihf =>
    intro k h
    obtain ⟨he,hf⟩ := (binds_append _ _ k).mp h
    rw [numbered,bind,ihe k he,ihf _ hf]
    rfl

end

lemma Operand.Ok.numbered {a : Operand String} (h : a.Ok) (k : ℕ) : (a.numbered k).Ok := by
  cases a with
  | neg a => cases a <;> exact h
  | plain a ss => cases a <;> exact h

lemma At.numbered {L : Level} {e : Expr String} (h : At L e) : ∀ k, At L (e.numbered k) := by
  induction h with
  | or _ _ ihe ihf => exact fun k => .or (ihe k) (ihf _)
  | ofConjunction _ ih => exact fun k => .ofConjunction (ih k)
  | and _ _ ihe ihf => exact fun k => .and (ihe k) (ihf _)
  | ofNegation _ ih => exact fun k => .ofNegation (ih k)
  | not _ ih => exact fun k => .not (ih k)
  | ofTest _ ih => exact fun k => .ofTest (ih k)
  | paren _ ih => exact fun k => .paren (ih k)
  | compare op ha hb => exact fun k => .compare op (ha.numbered k) (hb.numbered _)
  | isNull negated ha => exact fun k => .isNull negated (ha.numbered k)
  | inSelect negated project schema table ha =>
    exact fun k => .inSelect negated project schema table (ha.numbered k)
  | inSelectWhere negated project schema table ha _ ih =>
    exact fun k => .inSelectWhere negated project schema table (ha.numbered k) (ih _)
  | const b => exact fun _ => .const b

/-- A text with numbered placeholders, bound to the values in their order, is the condition it was made from. -/
theorem read_bind {e : Expr String} (h : At .disjunction e) {k : ℕ} {env : ℕ → Option String}
    (henv : Binds env k e.params) : (read (e.numbered k).text).bind (Expr.bind env) = some e := by
  rw [read_text (h.numbered k),Option.bind_some,e.bind_numbered k henv]

section
variable {op : Expr String → Expr String → Expr String} {unit : Expr String}

lemma Expr.chain_params (hop : ∀ e f, (op e f).params = e.params ++ f.params) (e : Expr String)
    (es : List (Expr String)) : (chain op unit (e :: es)).params = (e :: es).flatMap params := by
  induction es generalizing e with
  | nil => simp [chain]
  | cons f es ih => rw [chain,hop,ih,List.flatMap_cons (x := e)]

lemma Expr.chain_numbered (op' : Expr ℕ → Expr ℕ → Expr ℕ) (unit' : Expr ℕ)
    (hop : ∀ e f k, (op e f).numbered k = op' (e.numbered k) (f.numbered (k+e.params.length))) (e : Expr String)
    (es : List (Expr String)) :
    ∀ k, (chain op unit (e :: es)).numbered k = chain op' unit' (numberedAll k (e :: es)) := by
  induction es generalizing e with
  | nil => exact fun k => rfl
  | cons f es ih =>
    intro k
    rw [chain,hop,ih]
    rfl

lemma Expr.chain_text {op' : Expr ℕ → Expr ℕ → Expr ℕ} {unit' : Expr ℕ} {sep : List Char}
    (hop : ∀ e f, (op' e f).text = e.text ++ sep ++ f.text) (e : Expr ℕ) (es : List (Expr ℕ)) :
    (chain op' unit' (e :: es)).text = sep.intercalate ((e :: es).map text) := by
  induction es generalizing e with
  | nil => simp [chain]
  | cons f es ih =>
    rw [chain,hop,ih,List.map_cons (a := e),List.map_cons (a := f),List.intercalate_cons_cons,← List.map_cons,
      List.append_assoc]

/-- A text of conditions joined by AND. -/
lemma Expr.allOf_text (e : Expr String) (es : List (Expr String)) (k : ℕ) :
    ((allOf (e :: es)).numbered k).text =
      [' ','A','N','D',' '].intercalate ((numberedAll k (e :: es)).map text) := by
  rw [allOf,chain_numbered .and (.const true) (fun _ _ _ => rfl) e es k]
  exact chain_text (fun _ _ => rfl) _ _

/-- A text of conditions joined by OR. -/
lemma Expr.anyOf_text (e : Expr String) (es : List (Expr String)) (k : ℕ) :
    ((anyOf (e :: es)).numbered k).text =
      [' ','O','R',' '].intercalate ((numberedAll k (e :: es)).map text) := by
  rw [anyOf,chain_numbered .or (.const false) (fun _ _ _ => rfl) e es k]
  exact chain_text (fun _ _ => rfl) _ _

lemma At.allOf {es : List (Expr String)} (h : ∀ e ∈ es, At .test e) : At .conjunction (Expr.allOf es) := by
  induction es with
  | nil => exact .ofNegation (.ofTest (.const true))
  | cons e es ih =>
    obtain ⟨he,hes⟩ := List.forall_mem_cons.mp h
    cases es with
    | nil => exact .ofNegation (.ofTest he)
    | cons f es => exact .and (.ofTest he) (ih hes)

lemma At.anyOf {es : List (Expr String)} (h : ∀ e ∈ es, At .test e) : At .disjunction (Expr.anyOf es) := by
  induction es with
  | nil => exact .ofConjunction (.ofNegation (.ofTest (.const false)))
  | cons e es ih =>
    obtain ⟨he,hes⟩ := List.forall_mem_cons.mp h
    cases es with
    | nil => exact .ofConjunction (.ofNegation (.ofTest he))
    | cons f es => exact .or (.ofNegation (.ofTest he)) (ih hes)

end

end SqlExpr
