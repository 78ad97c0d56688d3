import ElectricCircuits.WhereTokens

/-! Parameters in the text of a WHERE clause: each `$N` gives way to a literal, and what that does to the tokens. -/
namespace ElectricCircuits
namespace WhereSql
open Lexer

/-- Does a placeholder start here? -/
def placeholderAt : List Char → Bool
  | '$' :: cs => digitAt cs
  | _ => false

section Source
variable (params : String → Option String)

/-- The loop of `substitute`; `skip` counts the characters that an earlier turn took along. -/
def substituteLoop : Bool → ℕ → List Char → Except String (List Char)
  | _,_,[] => .ok []
  | inQuote,skip+1,_ :: cs => substituteLoop inQuote skip cs
  | true,0,c :: cs =>
    if c = '\'' then
      if cs.head? = some '\'' then (substituteLoop true 1 cs).map fun out => c :: '\'' :: out
      else (substituteLoop false 0 cs).map fun out => c :: out
    else (substituteLoop true 0 cs).map fun out => c :: out
  | false,0,c :: cs =>
    if c = '\'' then (substituteLoop true 0 cs).map fun out => c :: out
    else if placeholderAt (c :: cs) then
      match params (String.ofList (cs.takeWhile Char.isDigit)) with
      | some v => (substituteLoop false (cs.takeWhile Char.isDigit).length cs).map fun out =>
          '\'' :: escaped '\'' v.toList ++ '\'' :: out
      | none => .error ("parameter $" ++ String.ofList (cs.takeWhile Char.isDigit) ++ " was not provided")
    else (substituteLoop false 0 cs).map fun out => c :: out

def substitute (w : List Char) : Except String (List Char) := substituteLoop params false 0 w

end Source

/-- The classes of Unicode: on ASCII, letters and digits. -/
structure UnicodeClass extends CharClass where
  letters : ∀ c : Char, c.toNat < 128 → alphabetic c = c.isAlpha
  digits : ∀ c : Char, c.toNat < 128 → numeric c = c.isDigit

/-- What a clause is made of before its parameters are in it. -/
inductive Item where
  | placeholder (num : String)
  | tok (t : Tok)
  deriving DecidableEq

section Reading
variable (cls : CharClass)

/-- One token or placeholder; the lexer reads literals and quoted identifiers whole. -/
def itemOne (cs : List Char) : Except LexError (Option Item × List Char) :=
  if placeholderAt cs then
    .ok (some (.placeholder (String.ofList (cs.tail.takeWhile Char.isDigit))),cs.tail.dropWhile Char.isDigit)
  else (lexOne cls cs).map fun r => (r.1.map .tok,r.2)

def placeholderTokens (w : List Char) : Except LexError (List Item) := scan (itemOne cls) .fuel w

variable (params : String → Option String)

/-- The literal that a placeholder stands for. -/
def fillIn : Item → Option Tok
  | .placeholder num => (params num).map .str
  | .tok t => some t

/-- The tokens of `out` are those of `w` with a literal for each placeholder. -/
def KeepsTokens (w out : List Char) : Prop :=
  (placeholderTokens cls w).map (List.map (fillIn params)) = (tokenize cls out).map (List.map some)

end Reading

/-- Where a position stands. -/
inductive Mode where
  | plain
  | string
  | identifier
  deriving DecidableEq

def Mode.next : Mode → Char → Mode
  | .plain,c => if c = '\'' then .string else if c = '"' then .identifier else .plain
  | .string,c => if c = '\'' then .plain else .string
  | .identifier,c => if c = '"' then .plain else .identifier

/-- A placeholder that stands outside quotes is where an even number of single quotes is before it, one that stands
inside is not; and outside it touches neither a literal nor another placeholder. -/
def AlignedAt (m : Mode) (odd : Bool) (c : Char) (cs : List Char) : Prop :=
  (placeholderAt (c :: cs) = true → (m = .plain ↔ odd = false) ∧
    (m = .plain → (cs.dropWhile Char.isDigit).head? ≠ some '\'' ∧ placeholderAt (cs.dropWhile Char.isDigit) = false)) ∧
  (c = '\'' → m = .string → placeholderAt cs = false)

def Aligned : Mode → Bool → List Char → Prop
  | _,_,[] => True
  | m,odd,c :: cs => AlignedAt m odd c cs ∧ Aligned (m.next c) (odd ^^ (c == '\'')) cs

instance (m : Mode) (odd : Bool) (c : Char) (cs : List Char) : Decidable (AlignedAt m odd c cs) :=
  inferInstanceAs (Decidable (_ ∧ _))

instance decidableAligned : ∀ m odd w, Decidable (Aligned m odd w)
  | _,_,[] => .isTrue trivial
  | m,odd,c :: cs => @instDecidableAnd _ _ _ (decidableAligned (m.next c) (odd ^^ (c == '\'')) cs)

section Scan
variable {params : String → Option String} {q : Bool} {c : Char} {cs out : List Char}

lemma map_ok {ε α β : Type} {x : Except ε α} {f : α → β} {b : β} (h : x.map f = .ok b) : ∃ a, x = .ok a ∧ f a = b := by
  cases x with
  | error e => cases h
  | ok a => exact ⟨a,rfl,Except.ok.inj h⟩

lemma substituteLoop_skip (n : ℕ) : ∀ cs, substituteLoop params q n cs = substituteLoop params q 0 (cs.drop n) := by
  induction n with
  | zero => exact fun _ => rfl
  | succ n ih =>
    intro cs
    cases cs with
    | nil => simp [substituteLoop]
    | cons c cs =>
      rw [substituteLoop,ih cs]
      rfl

/-- A quote toggles, a doubled one does so twice. -/
lemma substituteLoop_quote (cs : List Char) : substituteLoop params q 0 ('\'' :: cs) =
    (substituteLoop params (!q) 0 cs).map fun out => '\'' :: out := by
  cases q with
  | false => rfl
  | true =>
    rw [substituteLoop,if_pos rfl]
    split
    · next hhead =>
      cases cs with
      | nil => cases hhead
      | cons d cs =>
        rw [Option.some.inj hhead,substituteLoop]
        simp only [Bool.not_true]
        rw [substituteLoop,if_pos rfl]
        cases substituteLoop params true 0 cs <;> rfl
    · rfl

/-- A character goes over as it is, unless a placeholder starts with it. -/
lemma substituteLoop_cons (hcopied : ¬(q = false ∧ placeholderAt (c :: cs) = true))
    (h : substituteLoop params q 0 (c :: cs) = .ok out) :
    ∃ rest, substituteLoop params (q ^^ (c == '\'')) 0 cs = .ok rest ∧ out = c :: rest := by
  by_cases hc : c = '\''
  · rw [hc,substituteLoop_quote] at h
    obtain ⟨rest,hrest,hout⟩ := map_ok h
    exact ⟨rest,by simpa [hc] using hrest,by rw [← hout,hc]⟩
  · have hsame : (q ^^ (c == '\'')) = q := by rw [beq_false_of_ne hc,Bool.xor_false]
    rw [hsame]
    have hmap : substituteLoop params q 0 (c :: cs) = (substituteLoop params q 0 cs).map fun out => c :: out := by
      cases q with
      | false => rw [substituteLoop,if_neg hc,if_neg fun hp => hcopied ⟨rfl,hp⟩]
      | true => rw [substituteLoop,if_neg hc]
    obtain ⟨rest,hrest,hout⟩ := map_ok (hmap ▸ h)
    exact ⟨rest,hrest,hout.symm⟩

/-- A placeholder gives way to its value. -/
lemma substituteLoop_placeholder (hplace : placeholderAt ('$' :: cs) = true)
    (h : substituteLoop params false 0 ('$' :: cs) = .ok out) :
    ∃ v rest, params (String.ofList (cs.takeWhile Char.isDigit)) = some v ∧
      substituteLoop params false 0 (cs.dropWhile Char.isDigit) = .ok rest ∧
      out = '\'' :: escaped '\'' v.toList ++ '\'' :: rest := by
  rw [substituteLoop,if_neg (by decide),if_pos hplace] at h
  cases hv : params (String.ofList (cs.takeWhile Char.isDigit)) with
  | none =>
    rw [hv] at h
    cases h
  | some v =>
    have hdrop : cs.drop (cs.takeWhile Char.isDigit).length = cs.dropWhile Char.isDigit := by
      calc cs.drop (cs.takeWhile Char.isDigit).length
          = (cs.takeWhile Char.isDigit ++ cs.dropWhile Char.isDigit).drop (cs.takeWhile Char.isDigit).length := by
            rw [List.takeWhile_append_dropWhile]
        _ = cs.dropWhile Char.isDigit := List.drop_left
    rw [hv,substituteLoop_skip] at h
    obtain ⟨rest,hrest,hout⟩ := map_ok h
    exact ⟨v,rest,rfl,hdrop ▸ hrest,hout.symm⟩

/-- How many single quotes, odd or even, behind a text. -/
def parity (q : Bool) : List Char → Bool
  | [] => q
  | c :: cs => parity (q ^^ (c == '\'')) cs

/-- The scan finds no placeholder. -/
def Copied (q : Bool) : List Char → Prop
  | [] => True
  | c :: cs => ¬(q = false ∧ placeholderAt (c :: cs) = true) ∧ Copied (q ^^ (c == '\'')) cs

lemma placeholderAt_other (hc : c ≠ '$') (cs : List Char) : placeholderAt (c :: cs) = false := by
  unfold placeholderAt
  split
  · next heq => exact absurd (List.cons.inj heq).1 hc
  · rfl

lemma dollar_of_placeholderAt (h : placeholderAt (c :: cs) = true) : c = '$' := by
  by_contra hc
  rw [placeholderAt_other hc] at h
  cases h

/-- What stands behind does not make a placeholder, unless it is a digit. -/
lemma placeholderAt_append {z : List Char} (hz : digitAt z = false) (c : Char) (cs : List Char) :
    placeholderAt (c :: (cs ++ z)) = placeholderAt (c :: cs) := by
  have hdigit : digitAt (cs ++ z) = digitAt cs := by
    cases cs with
    | nil => exact hz
    | cons d ds => rfl
  by_cases hc : c = '$'
  · rw [hc]
    exact hdigit
  · rw [placeholderAt_other hc,placeholderAt_other hc]

lemma substituteLoop_copied {z : List Char} (hz : digitAt z = false) :
    ∀ {body : List Char} {q : Bool} {out : List Char}, Copied q body → substituteLoop params q 0 (body ++ z) = .ok out →
      ∃ rest, substituteLoop params (parity q body) 0 z = .ok rest ∧ out = body ++ rest
  | [],_,out,_,h => ⟨out,h,rfl⟩
  | c :: body,q,out,⟨hc,hbody⟩,h => by
    rw [← placeholderAt_append hz] at hc
    obtain ⟨out',hout',rfl⟩ := substituteLoop_cons hc h
    obtain ⟨rest,hrest,rfl⟩ := substituteLoop_copied hz hbody hout'
    exact ⟨rest,hrest,rfl⟩

/-- Up to the first placeholder that it finds inside quotes the text goes over; a quote stands there then. -/
lemma substituteLoop_broken {Q : Char} (hQ : Q ≠ '$') {z : List Char} (hz : digitAt z = false) :
    ∀ {s : List Char} {q : Bool} {out : List Char}, ¬Copied q (escaped Q s) →
      substituteLoop params q 0 (escaped Q s ++ z) = .ok out →
        ∃ b b' y, s = b ++ '$' :: b' ∧ out = escaped Q b ++ '\'' :: y
  | [],_,_,hnot,_ => absurd trivial hnot
  | c :: s,q,out,hnot,h => by
    by_cases hc : c = Q
    · subst hc
      rw [escaped_quote] at hnot h
      have hplain : ∀ (q : Bool) ds, ¬(q = false ∧ placeholderAt (c :: ds) = true) := by
        intro q ds hp
        rw [placeholderAt_other hQ] at hp
        cases hp.2
      obtain ⟨out₁,hout₁,rfl⟩ := substituteLoop_cons (hplain _ _) h
      obtain ⟨out₂,hout₂,rfl⟩ := substituteLoop_cons (hplain _ _) hout₁
      obtain ⟨b,b',y,rfl,rfl⟩ := substituteLoop_broken hQ hz
        (fun hcopied => hnot ⟨hplain _ _,hplain _ _,hcopied⟩) hout₂
      exact ⟨c :: b,b',y,rfl,by rw [escaped_quote]; rfl⟩
    · rw [escaped_other hc] at hnot h
      by_cases hp : q = false ∧ placeholderAt (c :: escaped Q s) = true
      · obtain ⟨rfl,hp⟩ := hp
        obtain rfl := dollar_of_placeholderAt hp
        rw [← placeholderAt_append hz] at hp
        obtain ⟨v,rest,-,-,rfl⟩ := substituteLoop_placeholder hp h
        exact ⟨[],s,_,rfl,rfl⟩
      · have hp' := hp
        rw [← placeholderAt_append hz] at hp'
        obtain ⟨out',hout',rfl⟩ := substituteLoop_cons hp' h
        obtain ⟨b,b',y,rfl,rfl⟩ := substituteLoop_broken hQ hz (fun hcopied => hnot ⟨hp,hcopied⟩) hout'
        exact ⟨c :: b,b',y,rfl,by rw [escaped_other hc]; rfl⟩

/-- The result starts with a quote only where the text does, or with a placeholder that is filled in. -/
lemma substituteLoop_head {d : Char} (h : substituteLoop params q 0 cs = .ok out) (hd : out.head? = some d) :
    cs.head? = some d ∨ (d = '\'' ∧ q = false ∧ placeholderAt cs = true) := by
  cases cs with
  | nil =>
    rw [substituteLoop] at h
    cases h
    cases hd
  | cons c cs =>
    by_cases hp : q = false ∧ placeholderAt (c :: cs) = true
    · obtain ⟨rfl,hp⟩ := hp
      obtain rfl := dollar_of_placeholderAt hp
      obtain ⟨v,rest,-,-,rfl⟩ := substituteLoop_placeholder hp h
      exact .inr ⟨(Option.some.inj hd).symm,rfl,hp⟩
    · obtain ⟨rest,-,rfl⟩ := substituteLoop_cons hp h
      exact .inl hd

/-- The modes that quotes open. -/
def Quotes (m : Mode) (Q : Char) : Prop := (m = .string ∧ Q = '\'') ∨ (m = .identifier ∧ Q = '"')

lemma Quotes.facts {m : Mode} {Q : Char} (h : Quotes m Q) : m ≠ .plain ∧ Q ≠ '$' ∧ Q.isDigit = false ∧
    Mode.next .plain Q = m ∧ m.next Q = .plain ∧ (m = .string ↔ Q = '\'') ∧ ∀ c ≠ Q, m.next c = m := by
  rcases h with ⟨rfl,rfl⟩ | ⟨rfl,rfl⟩
  · exact ⟨by decide,by decide,by decide,by decide,by decide,by decide,fun c hc => if_neg hc⟩
  · exact ⟨by decide,by decide,by decide,by decide,by decide,by decide,fun c hc => if_neg hc⟩

lemma aligned_quote {m : Mode} {Q : Char} (hQ : Q ≠ '$') : Aligned m q (Q :: cs) ↔
    (Q = '\'' → m = .string → placeholderAt cs = false) ∧ Aligned (m.next Q) (q ^^ (Q == '\'')) cs := by
  rw [Aligned,AlignedAt,placeholderAt_other hQ]
  simp

/-- Inside quotes nothing is to be found. -/
lemma aligned_quoted {m : Mode} {Q : Char} (h : Quotes m Q) {z : List Char} (hz : digitAt z = false) (s : List Char) :
    ∀ q, Aligned m q (escaped Q s ++ z) ↔ Copied q (escaped Q s) ∧ Aligned m (parity q (escaped Q s)) z := by
  obtain ⟨hplain,hdollar,-,hopen,hclose,hstring,hstay⟩ := h.facts
  induction s with
  | nil =>
    intro q
    exact (iff_of_eq (true_and _)).symm
  | cons c s ih =>
    intro q
    by_cases hc : c = Q
    · subst hc
      rw [escaped_quote,List.cons_append,List.cons_append,aligned_quote hdollar,aligned_quote hdollar,hclose,hopen,ih,
        Copied,Copied,parity,parity,placeholderAt_other hdollar,placeholderAt_other hdollar,
        placeholderAt_other hdollar]
      simp
    · rw [escaped_other hc,List.cons_append,Aligned,AlignedAt,placeholderAt_append hz,hstay c hc,ih,Copied,parity]
      have hnever : c = '\'' → m = .string → placeholderAt (escaped Q s ++ z) = false := by
        intro hquote hm
        exact absurd (hquote.trans (hstring.mp hm).symm) hc
      simp only [hplain,false_iff,false_imp_iff,and_true]
      rw [and_iff_left hnever,and_assoc]
      refine and_congr_left fun _ => ?_
      rw [not_and']

/-- Outside quotes there is nothing to tell but placeholders. -/
lemma aligned_plain {u z : List Char} (hu : ∀ c ∈ u, c ∉ ['\'','"','$']) :
    Aligned .plain q (u ++ z) ↔ Aligned .plain q z := by
  induction u with
  | nil => exact Iff.rfl
  | cons c u ih =>
    obtain ⟨hc,hu⟩ := List.forall_mem_cons.mp hu
    simp only [List.mem_cons,List.not_mem_nil,or_false,not_or] at hc
    have hnext : Mode.next .plain c = .plain := by rw [Mode.next,if_neg hc.1,if_neg hc.2.1]
    rw [List.cons_append,aligned_quote hc.2.2,hnext,beq_false_of_ne hc.1,Bool.xor_false,ih hu]
    exact and_iff_right fun h => absurd h hc.1

lemma substituteLoop_plain {z : List Char} : ∀ {u out : List Char}, (∀ c ∈ u, c ∉ ['\'','"','$']) →
    substituteLoop params q 0 (u ++ z) = .ok out →
      ∃ rest, substituteLoop params q 0 z = .ok rest ∧ out = u ++ rest
  | [],out,_,h => ⟨out,h,rfl⟩
  | c :: u,out,hu,h => by
    obtain ⟨hc,hu⟩ := List.forall_mem_cons.mp hu
    simp only [List.mem_cons,List.not_mem_nil,or_false,not_or] at hc
    have hno : ¬(q = false ∧ placeholderAt (c :: (u ++ z)) = true) := by
      rw [placeholderAt_other hc.2.2]
      simp
    obtain ⟨out',hout',rfl⟩ := substituteLoop_cons hno h
    rw [beq_false_of_ne hc.1,Bool.xor_false] at hout'
    obtain ⟨rest,hrest,rfl⟩ := substituteLoop_plain hu hout'
    exact ⟨rest,hrest,rfl⟩

end Scan

section Tokens
variable {cls : UnicodeClass} {params : String → Option String}

lemma ends_token : ∀ x ∈ ['\'','"','$'], EndsToken cls.toCharClass x := by
  intro x hx
  have hword : isWord cls.toCharClass x = (x.isAlpha || x.isDigit || x == '_') := by
    have hascii : x.toNat < 128 := by
      have hall : ['\'','"','$'].all (fun c => c.toNat < 128) = true := by decide
      simpa using List.all_eq_true.mp hall x hx
    rw [isWord,cls.letters x hascii,cls.digits x hascii]
  obtain rfl | rfl | rfl : x = '\'' ∨ x = '"' ∨ x = '$' := by simpa using hx
  · exact ⟨by decide,hword.trans (by decide),by decide⟩
  · exact ⟨by decide,hword.trans (by decide),by decide⟩
  · exact ⟨by decide,hword.trans (by decide),by decide⟩

lemma itemOne_token {c : Char} {cs : List Char} (h : placeholderAt (c :: cs) = false) :
    itemOne cls.toCharClass (c :: cs) = (lexOne cls.toCharClass (c :: cs)).map fun r => (r.1.map .tok,r.2) := by
  rw [itemOne,h]
  rfl

lemma itemOne_takes : Takes (itemOne cls.toCharClass) := by
  intro cs t rest hne hone
  rw [itemOne] at hone
  split at hone
  · next hp =>
    obtain ⟨c,cs,rfl⟩ := List.exists_cons_of_ne_nil hne
    cases hone
    exact ⟨c :: cs.takeWhile Char.isDigit,List.cons_ne_nil _ _,
      congrArg (c :: ·) List.takeWhile_append_dropWhile.symm⟩
  · obtain ⟨r,hr,heq⟩ := map_ok hone
    cases heq
    exact lexOne_takes cs r.1 r.2 hne hr

/-- Aligned, the text keeps its tokens; where it has any, only then. -/
def Settles (cls : UnicodeClass) (params : String → Option String) (q : Bool) (cs : List Char) : Prop :=
  ∀ out, substituteLoop params q 0 cs = .ok out →
    (Aligned .plain q cs →
      Along (itemOne cls.toCharClass) (lexOne cls.toCharClass) .fuel (fillIn params) cs out) ∧
    ∀ its, scan (itemOne cls.toCharClass) .fuel cs = .ok its →
      Along (itemOne cls.toCharClass) (lexOne cls.toCharClass) .fuel (fillIn params) cs out → Aligned .plain q cs

/-- What is read where a quote stands in place of a dollar is another text. -/
lemma quotedText_dollar {Q : Char} (hQ : Q ≠ '$') (b b' y : List Char) {r : List Char × List Char}
    (h : quotedText Q (escaped Q b ++ '\'' :: y) = some r) : r.1 ≠ b ++ '$' :: b' := by
  rw [quotedText_escaped] at h
  obtain ⟨r',hr',rfl⟩ := Option.map_eq_some_iff.mp h
  intro heq
  have hcontent : r'.1 = '$' :: b' := List.append_cancel_left heq
  by_cases hquote : Q = '\''
  · subst hquote
    cases y with
    | nil =>
      cases hr'
      cases hcontent
    | cons d y =>
      rw [quotedText,if_pos rfl] at hr'
      split at hr'
      · obtain ⟨r,-,rfl⟩ := Option.map_eq_some_iff.mp hr'
        cases hcontent
      · cases hr'
        cases hcontent
  · cases y with
    | nil =>
      rw [quotedText,if_neg (Ne.symm hquote)] at hr'
      cases hr'
    | cons d y =>
      rw [quotedText,if_neg (Ne.symm hquote)] at hr'
      obtain ⟨r,-,rfl⟩ := Option.map_eq_some_iff.mp hr'
      cases hcontent

/-- A text that goes on behind its closing quote is another one. -/
lemma quotedText_longer {Q : Char} (s y : List Char) {r : List Char × List Char}
    (h : quotedText Q (escaped Q s ++ Q :: Q :: y) = some r) : r.1 ≠ s := by
  rw [quotedText_escaped] at h
  obtain ⟨r',hr',rfl⟩ := Option.map_eq_some_iff.mp h
  rw [quotedText,if_pos rfl,if_pos rfl] at hr'
  obtain ⟨r,-,rfl⟩ := Option.map_eq_some_iff.mp hr'
  intro heq
  have hnil : Q :: r.1 = [] := List.append_cancel_left (heq.trans (List.append_nil s).symm)
  cases hnil

/-- Outside quotes, where all is aligned, a placeholder is filled in. -/
lemma starts_filled {q : Bool} {cs out : List Char} (hp : placeholderAt cs = true) (hal : Aligned .plain q cs)
    (h : substituteLoop params q 0 cs = .ok out) : q = false ∧ ∃ rest, out = '\'' :: rest := by
  cases cs with
  | nil => cases hp
  | cons c cs =>
    obtain rfl := dollar_of_placeholderAt hp
    obtain rfl : q = false := (hal.1.1 hp).1.mp rfl
    obtain ⟨v,rest,-,-,rfl⟩ := substituteLoop_placeholder hp h
    exact ⟨rfl,_,rfl⟩

/-- Quotes of one kind, the tokens they make and the error when they are left open. -/
structure QuoteKind (cls : UnicodeClass) (m : Mode) (Q : Char) (mk : List Char → Tok) (e : LexError) : Prop where
  quotes : Quotes m Q
  inj : Function.Injective mk
  lex : ∀ cs, lexOne cls.toCharClass (Q :: cs) = (quotedText Q cs).elim (.error e) fun r => .ok (some (mk r.1),r.2)

lemma stringQuotes :
    QuoteKind cls .string '\'' (fun s => .str (String.ofList s)) .unterminatedString where
  quotes := .inl ⟨rfl,rfl⟩
  inj _ _ heq := String.ofList_injective (Tok.str.inj heq)
  lex cs := by
    rw [lexOne]
    cases quotedText '\'' cs <;> rfl

lemma identifierQuotes :
    QuoteKind cls .identifier '"' (fun s => .ident (String.ofList s)) .unterminatedIdentifier where
  quotes := .inr ⟨rfl,rfl⟩
  inj _ _ heq := String.ofList_injective (Tok.ident.inj heq)
  lex cs := by
    rw [lexOne]
    cases quotedText '"' cs <;> rfl

/-- Between quotes another content makes another token. -/
lemma QuoteKind.differs {m : Mode} {Q : Char} {mk : List Char → Tok} {e : LexError} (hk : QuoteKind cls m Q mk e)
    {cs cs' out s : List Char} {item : Item} {its : List Item} (hne : cs ≠ [])
    (hone : itemOne cls.toCharClass cs = .ok (some item,cs')) (hfill : fillIn params item = some (mk s))
    (hits : scan (itemOne cls.toCharClass) .fuel cs = .ok its) (hdiff : ∀ r, quotedText Q out = some r → r.1 ≠ s) :
    ¬Along (itemOne cls.toCharClass) (lexOne cls.toCharClass) .fuel (fillIn params) cs (Q :: out) := by
  refine not_along itemOne_takes lexOne_takes hne (List.cons_ne_nil _ _) hone hits ?_
  intro t rest htwo
  rw [hk.lex] at htwo
  cases hr : quotedText Q out with
  | none =>
    rw [hr] at htwo
    cases htwo
  | some r =>
    rw [hr] at htwo
    cases htwo
    refine ⟨_,rfl,fun heq => hdiff r hr ?_⟩
    rw [hfill] at heq
    exact (hk.inj (Option.some.inj heq)).symm

lemma cons_of_head {Q : Char} {cs : List Char} (h : cs.head? = some Q) : ∃ ds, cs = Q :: ds := by
  cases cs with
  | nil => cases h
  | cons d ds => exact ⟨ds,by rw [Option.some.inj h]⟩

/-- A quoted token goes over as it is, unless something is filled in inside it or merges with it. -/
lemma settles_quoted {m : Mode} {Q : Char} {mk : List Char → Tok} {e : LexError} (hk : QuoteKind cls m Q mk e)
    {cs : List Char}
    (ih : ∀ rest q, rest.length < (Q :: cs).length → Settles cls params q rest) (q : Bool) :
    Settles cls params q (Q :: cs) := by
  intro out h
  obtain ⟨hplain,hdollar,hdigit,hopen,hclose,hstring,-⟩ := hk.quotes.facts
  have hno : ∀ ds, placeholderAt (Q :: ds) = false := placeholderAt_other hdollar
  have hcopy : ∀ (q : Bool) ds, ¬(q = false ∧ placeholderAt (Q :: ds) = true) := by
    intro q ds hp
    rw [hno] at hp
    cases hp.2
  have hone : itemOne cls.toCharClass (Q :: cs) = (quotedText Q cs).elim (.error e) fun r =>
      .ok (some (.tok (mk r.1)),r.2) := by
    rw [itemOne_token (hno cs),hk.lex]
    cases quotedText Q cs <;> rfl
  obtain ⟨out₁,hout₁,rfl⟩ := substituteLoop_cons (hcopy _ _) h
  rcases quotedText_cases Q cs with ⟨s,rest,rfl,hrest⟩ | ⟨s,rfl⟩
  · have hz : digitAt (Q :: rest) = false := hdigit
    have hread : quotedText Q (escaped Q s ++ Q :: rest) = some (s,rest) := by
      rw [quotedText_escaped,quotedText_closed hrest,Option.map_some,List.append_nil]
    have hone' : itemOne cls.toCharClass (Q :: (escaped Q s ++ Q :: rest)) = .ok (some (.tok (mk s)),rest) := by
      rw [hone,hread]
      rfl
    have haligned : Aligned .plain q (Q :: (escaped Q s ++ Q :: rest)) ↔ 
        Copied (q ^^ (Q == '\'')) (escaped Q s) ∧ (Q = '\'' → placeholderAt rest = false) ∧ 
          Aligned .plain (parity (q ^^ (Q == '\'')) (escaped Q s) ^^ (Q == '\'')) rest := by
      rw [aligned_quote hdollar,hopen,aligned_quoted hk.quotes hz,aligned_quote hdollar,hclose,and_iff_right]
      · refine and_congr_right fun _ => and_congr_left fun _ => forall_congr' fun hquote => ?_
        exact forall_prop_of_true (hstring.mpr hquote)
      · intro _ hm
        cases hm
    by_cases hcopied : Copied (q ^^ (Q == '\'')) (escaped Q s)
    · obtain ⟨out₂,hout₂,rfl⟩ := substituteLoop_copied hz hcopied hout₁
      obtain ⟨out₃,hout₃,rfl⟩ := substituteLoop_cons (hcopy _ _) hout₂
      by_cases hhead : out₃.head? = some Q
      · -- the literal and what is filled in behind it are one literal
        have hmerge := substituteLoop_head hout₃ hhead
        obtain ⟨hquote,hq,hplace⟩ := hmerge.resolve_left hrest
        constructor
        · intro hal
          rw [(haligned.mp hal).2.1 hquote] at hplace
          cases hplace
        · intro its hits halong
          obtain ⟨y,rfl⟩ := cons_of_head hhead
          exact absurd halong (hk.differs (List.cons_ne_nil _ _) hone' rfl hits fun r => quotedText_longer s y)
      · have htwo : lexOne cls.toCharClass (Q :: (escaped Q s ++ Q :: out₃)) = .ok (some (mk s),out₃) := by
          rw [hk.lex,quotedText_escaped,quotedText_closed hhead]
          simp
        have hstep : Along (itemOne cls.toCharClass) (lexOne cls.toCharClass) .fuel (fillIn params)
            (Q :: (escaped Q s ++ Q :: rest)) (Q :: (escaped Q s ++ Q :: out₃)) ↔ _ :=
          along_step itemOne_takes lexOne_takes (List.cons_ne_nil _ _) (List.cons_ne_nil _ _)
            hone' htwo rfl
        have hlt : rest.length < (Q :: (escaped Q s ++ Q :: rest)).length := by
          simp only [List.length_cons,List.length_append]
          omega
        obtain ⟨hto,hfrom⟩ := ih rest _ hlt out₃ hout₃
        rw [hstep,haligned]
        refine ⟨fun hal => hto hal.2.2,?_⟩
        intro its hits halong
        obtain ⟨its',hits'⟩ := scan_rest itemOne_takes (List.cons_ne_nil _ _) hone' hits
        have hal := hfrom its' hits' halong
        refine ⟨hcopied,fun hquote => ?_,hal⟩
        -- behind a literal a placeholder is either filled in, and merges, or misread
        by_contra hplace
        rw [Bool.not_eq_false] at hplace
        obtain ⟨-,out₄,rfl⟩ := starts_filled hplace hal hout₃
        exact hhead (by rw [hquote]; rfl)
    · obtain ⟨b,b',y,rfl,rfl⟩ := substituteLoop_broken hdollar hz hcopied hout₁
      refine ⟨fun hal => absurd (haligned.mp hal).1 hcopied,?_⟩
      intro its hits halong
      exact absurd halong (hk.differs (List.cons_ne_nil _ _) hone' rfl hits fun r => quotedText_dollar hdollar b b' y)
  · have hread : quotedText Q (escaped Q s) = none := by
      rw [← List.append_nil (escaped Q s),quotedText_escaped]
      rfl
    have hone' : itemOne cls.toCharClass (Q :: escaped Q s) = .error e := by
      rw [hone,hread]
      rfl
    constructor
    · intro hal
      rw [aligned_quote hdollar,hopen,← List.append_nil (escaped Q s),aligned_quoted hk.quotes rfl] at hal
      rw [← List.append_nil (escaped Q s)] at hout₁
      obtain ⟨out₂,hout₂,rfl⟩ := substituteLoop_copied rfl hal.2.1 hout₁
      cases hout₂
      refine along_error (List.cons_ne_nil _ _) (List.cons_ne_nil _ _) hone' ?_
      rw [hk.lex,List.append_nil,hread]
      rfl
    · intro its hits
      rw [scan_error (List.cons_ne_nil _ _) hone'] at hits
      cases hits

/-- The tokens outside quotes go over as they are, whatever is filled in behind them. -/
lemma settles_plain {c : Char} {cs : List Char} (hc : c ∉ ['\'','"','$']) 
    (ih : ∀ rest q, rest.length < (c :: cs).length → Settles cls params q rest) (q : Bool) :
    Settles cls params q (c :: cs) := by
  intro out h
  have hc' := hc
  simp only [List.mem_cons,List.not_mem_nil,or_false,not_or] at hc
  let mark : Char → Bool := fun d => d ∉ ['\'','"','$']
  obtain ⟨z,hu,hz⟩ : ∃ z, cs = cs.takeWhile mark ++ z ∧ (z = [] ∨ ∃ x z', z = x :: z' ∧ x ∈ ['\'','"','$']) := by
    refine ⟨cs.dropWhile mark,List.takeWhile_append_dropWhile.symm,?_⟩
    cases hz : cs.dropWhile mark with
    | nil => exact .inl rfl
    | cons x z' =>
      refine .inr ⟨x,z',rfl,?_⟩
      have hx := List.head_dropWhile_not mark (l := cs) (by rw [hz]; exact List.cons_ne_nil _ _)
      simp only [hz,List.head_cons,mark,decide_eq_false_iff_not,not_not] at hx
      exact hx
  generalize hus : cs.takeWhile mark = u at hu
  have hu' : ∀ d ∈ c :: u, d ∉ ['\'','"','$'] := by
    rintro d (_ | ⟨_,hd⟩)
    · exact hc'
    · rw [← hus] at hd
      simpa [mark] using List.mem_takeWhile_imp hd
  subst hu
  have hcut : ∀ z, (z = [] ∨ ∃ x z', z = x :: z' ∧ x ∈ ['\'','"','$']) →
      lexOne cls.toCharClass (c :: (u ++ z)) = (lexOne cls.toCharClass (c :: u)).map fun r => (r.1,r.2 ++ z) := by
    rintro z (rfl | ⟨x,z',rfl,hx⟩)
    · simp only [List.append_nil]
      cases lexOne cls.toCharClass (c :: u) <;> rfl
    · exact lexOne_append hc.1 hc.2.1 (ends_token x hx) u z'
  obtain ⟨z₂,hz₂,rfl⟩ := substituteLoop_plain (u := c :: u) hu' h
  have hmark : z₂ = [] ∨ ∃ x z', z₂ = x :: z' ∧ x ∈ ['\'','"','$'] := by
    cases z₂ with
    | nil => exact .inl rfl
    | cons x z' =>
      refine .inr ⟨x,z',rfl,?_⟩
      rcases substituteLoop_head hz₂ rfl with hhead | ⟨rfl,-,-⟩
      · rcases hz with rfl | ⟨y,z'',rfl,hy⟩
        · cases hhead
        · rwa [← Option.some.inj hhead]
      · exact List.mem_cons_self
  have hone : itemOne cls.toCharClass (c :: (u ++ z)) = _ := itemOne_token (placeholderAt_other hc.2.2 (u ++ z))
  have htwo := hcut z₂ hmark
  rw [hcut z hz] at hone
  cases hturn : lexOne cls.toCharClass (c :: u) with
  | error e =>
    rw [hturn] at hone htwo
    refine ⟨fun _ => along_error (List.cons_ne_nil _ _) (List.cons_ne_nil _ _) hone htwo,?_⟩
    intro its hits
    rw [scan_error (List.cons_ne_nil _ _) hone] at hits
    cases hits
  | ok r =>
    rw [hturn] at hone htwo
    obtain ⟨taken,htaken,hsplit⟩ := lexOne_takes _ r.1 r.2 (List.cons_ne_nil _ _) hturn
    have hsub : ∀ d ∈ taken, d ∉ ['\'','"','$'] := by
      intro d hd
      exact hu' d (hsplit ▸ List.mem_append_left _ hd)
    have hwhole : ∀ z : List Char, c :: (u ++ z) = taken ++ (r.2 ++ z) := by
      intro z
      rw [← List.append_assoc,← hsplit]
      rfl
    have hrest : substituteLoop params q 0 (r.2 ++ z) = .ok (r.2 ++ z₂) := by
      rw [hwhole] at h
      obtain ⟨rest,hrest,heq⟩ := substituteLoop_plain hsub h
      rw [hrest,List.append_cancel_left ((hwhole z₂).symm.trans heq)]
    have hlt : (r.2 ++ z).length < (c :: (u ++ z)).length := by
      have hpos := List.length_pos_iff.mpr htaken
      rw [hwhole,@List.length_append _ taken]
      omega
    obtain ⟨hto,hfrom⟩ := ih (r.2 ++ z) q hlt (r.2 ++ z₂) hrest
    have hitem : (r.1.map Item.tok).map (fillIn params) = r.1.map some := by
      cases r.1 <;> rfl
    have hstep : Along (itemOne cls.toCharClass) (lexOne cls.toCharClass) .fuel (fillIn params)
        (c :: (u ++ z)) (c :: (u ++ z₂)) ↔ _ :=
      along_step itemOne_takes lexOne_takes (List.cons_ne_nil _ _) (List.cons_ne_nil _ _) hone htwo hitem
    have haligned : Aligned .plain q (c :: (u ++ z)) ↔ Aligned .plain q (r.2 ++ z) := by
      rw [hwhole]
      exact aligned_plain hsub
    rw [List.cons_append,hstep,haligned]
    refine ⟨hto,?_⟩
    intro its hits
    obtain ⟨its',hits'⟩ := scan_rest itemOne_takes (List.cons_ne_nil _ _) hone hits
    exact hfrom its' hits'

lemma lexOne_dollar (cs : List Char) : lexOne cls.toCharClass ('$' :: cs) = .error (.unexpected '$') := by
  have hletter : cls.alphabetic '$' = false := (cls.letters '$' (by decide)).trans (by decide)
  rw [lexOne]
  simp [isWhitespace,isOperator,startsNumber,digitAt,hletter]

lemma aligned_digits {q : Bool} (cs : List Char) :
    Aligned .plain q cs ↔ Aligned .plain q (cs.dropWhile Char.isDigit) := by
  have hdigits : ∀ c ∈ cs.takeWhile Char.isDigit, c ∉ ['\'','"','$'] := by
    intro c hc hmark
    have hdigit := List.mem_takeWhile_imp hc
    obtain rfl | rfl | rfl : c = '\'' ∨ c = '"' ∨ c = '$' := by simpa using hmark
    all_goals exact absurd hdigit (by decide)
  calc Aligned .plain q cs ↔ Aligned .plain q (cs.takeWhile Char.isDigit ++ cs.dropWhile Char.isDigit) := by
        rw [List.takeWhile_append_dropWhile]
    _ ↔ Aligned .plain q (cs.dropWhile Char.isDigit) := aligned_plain hdigits

/-- A placeholder outside quotes becomes its literal, unless that merges with what follows. -/
lemma settles_placeholder {cs : List Char} (hp : placeholderAt ('$' :: cs) = true)
    (ih : ∀ rest q, rest.length < ('$' :: cs).length → Settles cls params q rest) (q : Bool) :
    Settles cls params q ('$' :: cs) := by
  intro out h
  have hone : itemOne cls.toCharClass ('$' :: cs) =
      .ok (some (.placeholder (String.ofList (cs.takeWhile Char.isDigit))),cs.dropWhile Char.isDigit) := by
    rw [itemOne,if_pos hp]
    rfl
  cases q with
  | true =>
    -- it stands there as it is, and is no token
    obtain ⟨rest,-,rfl⟩ := substituteLoop_cons (fun hq => Bool.noConfusion hq.1) h
    refine ⟨fun hal => ?_,?_⟩
    · cases (hal.1.1 hp).1.mp rfl
    · intro its hits halong
      refine absurd halong (not_along itemOne_takes lexOne_takes (List.cons_ne_nil _ _) (List.cons_ne_nil _ _) hone
        hits ?_)
      intro t rest' htwo
      rw [lexOne_dollar] at htwo
      cases htwo
  | false =>
    obtain ⟨v,rest,hv,hrest,rfl⟩ := substituteLoop_placeholder hp h
    have hfill : fillIn params (.placeholder (String.ofList (cs.takeWhile Char.isDigit))) = some (.str v) := by
      rw [fillIn,hv]
      rfl
    have haligned : Aligned .plain false ('$' :: cs) ↔ ((cs.dropWhile Char.isDigit).head? ≠ some '\'' ∧
        placeholderAt (cs.dropWhile Char.isDigit) = false) ∧ Aligned .plain false (cs.dropWhile Char.isDigit) := by
      have hat : AlignedAt .plain false '$' cs ↔ (cs.dropWhile Char.isDigit).head? ≠ some '\'' ∧
          placeholderAt (cs.dropWhile Char.isDigit) = false := by
        rw [AlignedAt,hp]
        simp
      rw [Aligned,hat]
      exact and_congr_right fun _ => aligned_digits cs
    by_cases hhead : rest.head? = some '\''
    · constructor
      · intro hal
        obtain ⟨⟨hquote,hplace⟩,-⟩ := haligned.mp hal
        rcases substituteLoop_head hrest hhead with h' | ⟨-,-,h'⟩
        · exact absurd h' hquote
        · rw [hplace] at h'
          cases h'
      · intro its hits halong
        obtain ⟨y,rfl⟩ := cons_of_head hhead
        have hfill' : fillIn params (.placeholder (String.ofList (cs.takeWhile Char.isDigit))) =
            some (.str (String.ofList v.toList)) := by
          rw [hfill,String.ofList_toList]
        exact absurd halong (stringQuotes.differs (List.cons_ne_nil _ _) hone hfill' hits
          fun r => quotedText_longer v.toList y)
    · have htwo : lexOne cls.toCharClass ('\'' :: escaped '\'' v.toList ++ '\'' :: rest) =
          .ok (some (.str v),rest) := by
        rw [List.cons_append,stringQuotes.lex,quotedText_escaped,quotedText_closed hhead]
        simp
      have hlt : (cs.dropWhile Char.isDigit).length < ('$' :: cs).length := by
        rw [List.length_cons]
        exact Nat.lt_succ_of_le (List.length_dropWhile_le _ _)
      obtain ⟨hto,hfrom⟩ := ih _ false hlt rest hrest
      have hstep : Along (itemOne cls.toCharClass) (lexOne cls.toCharClass) .fuel (fillIn params)
          ('$' :: cs) ('\'' :: escaped '\'' v.toList ++ '\'' :: rest) ↔ _ :=
        along_step itemOne_takes lexOne_takes (List.cons_ne_nil _ _) (List.cons_ne_nil _ _) hone htwo
          (by rw [Option.map_some,hfill]; rfl)
      rw [hstep,haligned]
      refine ⟨fun hal => hto hal.2,?_⟩
      intro its hits halong
      obtain ⟨its',hits'⟩ := scan_rest itemOne_takes (List.cons_ne_nil _ _) hone hits
      have hal := hfrom its' hits' halong
      refine ⟨⟨fun hquote => ?_,?_⟩,hal⟩
      · obtain ⟨ds,hds⟩ := cons_of_head hquote
        rw [hds,substituteLoop_quote] at hrest
        obtain ⟨y,-,rfl⟩ := map_ok hrest
        exact hhead rfl
      · by_contra hplace
        rw [Bool.not_eq_false] at hplace
        obtain ⟨-,y,rfl⟩ := starts_filled hplace hal hrest
        exact hhead rfl

lemma settles (cs : List Char) : ∀ q, Settles cls params q cs := by
  induction hn : cs.length using Nat.strong_induction_on generalizing cs with
  | _ n ihn =>
    subst hn
    have ih : ∀ rest q, rest.length < cs.length → Settles cls params q rest := fun rest q hlt => ihn _ hlt rest rfl q
    intro q
    cases cs with
    | nil =>
      intro out h
      cases h
      exact ⟨fun _ => along_nil,fun _ _ _ => trivial⟩
    | cons c cs =>
      by_cases hmark : c ∈ ['\'','"','$']
      · obtain rfl | rfl | rfl : c = '\'' ∨ c = '"' ∨ c = '$' := by simpa using hmark
        · exact settles_quoted stringQuotes ih q
        · exact settles_quoted identifierQuotes ih q
        · cases hp : placeholderAt ('$' :: cs) with
          | true => exact settles_placeholder hp ih q
          | false =>
            intro out h
            obtain ⟨rest,-,rfl⟩ := substituteLoop_cons (fun hq => Bool.noConfusion (hp.symm.trans hq.2)) h
            have hone : itemOne cls.toCharClass _ = _ := itemOne_token hp
            rw [lexOne_dollar] at hone
            refine ⟨fun _ => along_error (List.cons_ne_nil _ _) (List.cons_ne_nil _ _) hone (lexOne_dollar rest),?_⟩
            intro its hits
            rw [scan_error (List.cons_ne_nil _ _) hone] at hits
            cases hits
      · exact settles_plain hmark ih q

lemma keepsTokens_iff {w out : List Char} : KeepsTokens cls.toCharClass params w out ↔
    Along (itemOne cls.toCharClass) (lexOne cls.toCharClass) .fuel (fillIn params) w out := by
  rw [KeepsTokens,tokenize_eq_scan,Along,placeholderTokens]

/-- Aligned, the clause keeps its tokens, and what it has of text no lexer reads is refused alike; a clause that has
tokens keeps them in no other case. -/
theorem substitute_keepsTokens {w out : List Char} (h : substitute params w = .ok out) :
    (Aligned .plain false w → KeepsTokens cls.toCharClass params w out) ∧
    ∀ its, placeholderTokens cls.toCharClass w = .ok its →
      (KeepsTokens cls.toCharClass params w out ↔ Aligned .plain false w) := by
  obtain ⟨hto,hfrom⟩ := settles w false out h
  rw [keepsTokens_iff]
  exact ⟨hto,fun its hits => ⟨hfrom its hits,hto⟩⟩

end Tokens
/-- ASCII alone. -/
def asciiClass : UnicodeClass where
  alphabetic := Char.isAlpha
  numeric := Char.isDigit
  space := by decide
  ascii _ h := h
  letters _ _ := rfl
  digits _ _ := rfl

def sampleParams : String → Option String := fun num => if num = "1" then some "a\" OR \"b" else none

theorem sample_keepsTokens :
    substitute sampleParams ['x','=','$','1'] = .ok ['x','=','\'','a','"',' ','O','R',' ','"','b','\''] ∧
    KeepsTokens asciiClass.toCharClass sampleParams ['x','=','$','1']
      ['x','=','\'','a','"',' ','O','R',' ','"','b','\''] :=
  ⟨by decide +kernel,(substitute_keepsTokens (by decide +kernel)).1 (by decide)⟩

/-- A quoted identifier is no place for a parameter, but `substitute` does not know of it: the value closes the
identifier and adds tokens of its own. -/
theorem sample_identifier_filled :
    substitute sampleParams ['"','$','1','"','=','2'] =
      .ok ['"','\'','a','"',' ','O','R',' ','"','b','\'','"','=','2'] ∧
    placeholderTokens asciiClass.toCharClass ['"','$','1','"','=','2'] =
      .ok [.tok (.ident "$1"),.tok (.op "="),.tok (.num "2")] ∧
    tokenize asciiClass.toCharClass ['"','\'','a','"',' ','O','R',' ','"','b','\'','"','=','2'] =
      .ok [.ident "'a",.or,.ident "b'",.op "=",.num "2"] ∧
    ¬KeepsTokens asciiClass.toCharClass sampleParams ['"','$','1','"','=','2']
      ['"','\'','a','"',' ','O','R',' ','"','b','\'','"','=','2'] := by
  have hitems : placeholderTokens asciiClass.toCharClass ['"','$','1','"','=','2'] =
      .ok [.tok (.ident "$1"),.tok (.op "="),.tok (.num "2")] := by decide +kernel
  have htoks : tokenize asciiClass.toCharClass ['"','\'','a','"',' ','O','R',' ','"','b','\'','"','=','2'] =
      .ok [.ident "'a",.or,.ident "b'",.op "=",.num "2"] := by decide +kernel
  refine ⟨by decide +kernel,hitems,htoks,?_⟩
  rw [KeepsTokens,hitems,htoks]
  decide

end WhereSql
end ElectricCircuits
