import ElectricCircuits.KeyString
import ElectricCircuits.Lib.Delimited

/-! The text of a JSON value, and that it determines the value. -/
namespace ElectricCircuits
open Delimited

/-- A letter of a JSON number. -/
def numberChar (c : Char) : Bool := c.isDigit || c == '-' || c == '+' || c == '.' || c == 'e'

/-- How a finite double is written: in the letters of a number, never as an integer is, and so that
it can be read back. -/
structure FloatText where
  text : OrderedFloat → List Char
  number : ∀ f, f.isFinite = true → ∀ c ∈ text f, numberChar c = true
  fractional : ∀ f, f.isFinite = true → ∃ c ∈ text f, c = '.' ∨ c = 'e'
  inj : ∀ f g, f.isFinite = true → g.isFinite = true → text f = text g → f = g

def shortEscape : Char → Option Char
  | '"' => some '"'
  | '\\' => some '\\'
  | '\n' => some 'n'
  | '\r' => some 'r'
  | '\t' => some 't'
  | '\x08' => some 'b'
  | '\x0c' => some 'f'
  | _ => none

def escapeJsonChar (c : Char) : List Char :=
  match shortEscape c with
  | some e => ['\\',e]
  | none =>
    if c.toNat < 0x20 then ['\\','u','0','0',Nat.digitChar (c.toNat/16),Nat.digitChar (c.toNat%16)]
    else [c]

def quoted (s : String) : List Char := '"' :: s.toList.flatMap escapeJsonChar ++ ['"']

namespace Json

mutual

/-- `serde_json::to_string`. -/
def chars (ft : FloatText) : Json → List Char
  | null => ['n','u','l','l']
  | bool true => ['t','r','u','e']
  | bool false => ['f','a','l','s','e']
  | int i => (toString i).toList
  | float f => ft.text f
  | string s => quoted s
  | array xs => '[' :: [','].intercalate (charsList ft xs) ++ [']']
  | object fields => '\x7b' :: [','].intercalate (charsFields ft fields) ++ ['\x7d']

def charsList (ft : FloatText) : List Json → List (List Char)
  | [] => []
  | x :: xs => chars ft x :: charsList ft xs

def charsFields (ft : FloatText) : List (String × Json) → List (List Char)
  | [] => []
  | (k,x) :: fields => (quoted k ++ ':' :: chars ft x) :: charsFields ft fields

end

mutual

/-- Every number is one that JSON has. -/
def finite : Json → Bool
  | float f => f.isFinite
  | array xs => finiteList xs
  | object fields => finiteFields fields
  | _ => true

def finiteList : List Json → Bool
  | [] => true
  | x :: xs => finite x && finiteList xs

def finiteFields : List (String × Json) → Bool
  | [] => true
  | (_,x) :: fields => finite x && finiteFields fields

end

/-- Induction over a value and the lists it nests. -/
@[elab_as_elim]
theorem induction_on {motive : Json → Prop} (null : motive null) (bool : ∀ b, motive (bool b))
    (int : ∀ i, motive (int i)) (float : ∀ f, motive (float f)) (string : ∀ s, motive (string s))
    (array : ∀ xs, (∀ x ∈ xs, motive x) → motive (array xs))
    (object : ∀ fields, (∀ f ∈ fields, motive f.2) → motive (object fields)) (j : Json) :
    motive j := by
  refine @Json.rec motive (fun xs => ∀ x ∈ xs, motive x) (fun fs => ∀ f ∈ fs, motive f.2)
    (fun f => motive f.2) null bool int float string array object ?_ ?_ ?_ ?_ ?_ j
  · simp
  · intro x xs ih ihs
    exact List.forall_mem_cons.mpr ⟨ih,ihs⟩
  · simp
  · intro f fs ih ihs
    exact List.forall_mem_cons.mpr ⟨ih,ihs⟩
  · intro k x ih
    exact ih

def fieldChars (ft : FloatText) (f : String × Json) : List Char := quoted f.1 ++ ':' :: chars ft f.2

lemma charsList_eq (ft : FloatText) (xs : List Json) : charsList ft xs = xs.map (chars ft) := by
  induction xs with
  | nil => rfl
  | cons x xs ih => rw [charsList,ih,List.map_cons]

lemma charsFields_eq (ft : FloatText) (fs : List (String × Json)) :
    charsFields ft fs = fs.map (fieldChars ft) := by
  induction fs with
  | nil => rfl
  | cons f fs ih => rw [charsFields,ih,List.map_cons,fieldChars]

lemma finiteList_iff (xs : List Json) : finiteList xs = true ↔ ∀ x ∈ xs, x.finite = true := by
  induction xs with
  | nil => simp [finiteList]
  | cons x xs ih => simp [finiteList,ih]

lemma finiteFields_iff (fs : List (String × Json)) :
    finiteFields fs = true ↔ ∀ f ∈ fs, f.2.finite = true := by
  induction fs with
  | nil => simp [finiteFields]
  | cons f fs ih => simp [finiteFields,ih]

end Json

lemma shortEscape_inj {c d e : Char} (hc : shortEscape c = some e) (hd : shortEscape d = some e) :
    c = d := by
  unfold shortEscape at hc hd
  split at hc <;> split at hd <;> cases hc
  all_goals first | rfl | exact absurd hd (by decide)

lemma shortEscape_ne_u {c : Char} : shortEscape c ≠ some 'u' := by
  unfold shortEscape
  split <;> decide

lemma digitChar_inj : ∀ m < 16, ∀ n < 16, Nat.digitChar m = Nat.digitChar n → m = n := by decide

/-- No escape is the start of another one. -/
lemma escapeJsonChar_prefixFree : PrefixFree escapeJsonChar := by
  intro c d s t h
  unfold escapeJsonChar at h
  cases hc : shortEscape c with
  | some e =>
    cases hd : shortEscape d with
    | some e' =>
      simp only [hc,hd,List.cons_append,List.nil_append,List.cons.injEq,true_and] at h
      exact ⟨shortEscape_inj hc (h.1 ▸ hd),h.2⟩
    | none =>
      simp only [hc,hd] at h
      split_ifs at h
      · have hu : e = 'u' := (List.cons.inj (List.cons.inj h).2).1
        exact absurd (hu ▸ hc) shortEscape_ne_u
      · have hb : '\\' = d := (List.cons.inj h).1
        simp [← hb,shortEscape] at hd
  | none =>
    cases hd : shortEscape d with
    | some e' =>
      simp only [hc,hd] at h
      split_ifs at h
      · have hu : 'u' = e' := (List.cons.inj (List.cons.inj h).2).1
        exact absurd (hu ▸ hd) shortEscape_ne_u
      · have hb : c = '\\' := (List.cons.inj h).1
        simp [hb,shortEscape] at hc
    | none =>
      simp only [hc,hd] at h
      split_ifs at h with hc' hd' hd'
      · simp only [List.cons_append,List.nil_append,List.cons.injEq,true_and] at h
        have hhi := digitChar_inj _ (by omega) _ (by omega) h.1
        have hlo := digitChar_inj _ (by omega) _ (by omega) h.2.1
        exact ⟨Char.toNat_inj.mp (by omega),h.2.2⟩
      · have hb : '\\' = d := (List.cons.inj h).1
        simp [← hb,shortEscape] at hd
      · have hb : c = '\\' := (List.cons.inj h).1
        simp [hb,shortEscape] at hc
      · exact ⟨(List.cons.inj h).1,(List.cons.inj h).2⟩

lemma escapeJsonChar_startsOff (c : Char) : StartsOff '"' (escapeJsonChar c) := by
  unfold escapeJsonChar
  cases hc : shortEscape c with
  | some e => exact ⟨'\\',[e],rfl,by decide⟩
  | none =>
    simp only
    split_ifs
    · exact ⟨'\\',_,rfl,by decide⟩
    · refine ⟨c,[],rfl,?_⟩
      rintro rfl
      simp [shortEscape] at hc

/-- A quoted string ends at its closing quote. -/
theorem quoted_cancel {x y : String} {s t : List Char} (h : quoted x ++ s = quoted y ++ t) :
    x = y ∧ s = t := by
  simp only [quoted,List.cons_append,List.append_assoc,List.nil_append,List.cons.injEq,true_and] at h
  obtain ⟨hxy,hst⟩ := flatMap_cancel escapeJsonChar_prefixFree escapeJsonChar_startsOff h
  exact ⟨String.toList_inj.mp hxy,hst⟩

lemma numberChar_of_isDigit {c : Char} (h : c.isDigit = true) : numberChar c = true := by
  simp [numberChar,h]

lemma numberChar_int (i : ℤ) : ∀ c ∈ (toString i).toList, c.isDigit = true ∨ c = '-' := by
  have hdigit : ∀ n, ∀ c ∈ (Nat.repr n).toList, c.isDigit = true := by
    intro n c hc
    rw [Nat.toList_repr] at hc
    exact Nat.isDigit_of_mem_toDigits (by norm_num) (by norm_num) hc
  intro c hc
  cases i with
  | ofNat n => exact .inl (hdigit n c hc)
  | negSucc n =>
    change c ∈ ("-" ++ Nat.repr (n+1)).toList at hc
    rw [String.toList_append,List.mem_append] at hc
    rcases hc with hc | hc
    · exact .inr (by simpa using hc)
    · exact .inl (hdigit _ c hc)

lemma toList_int_ne_nil (i : ℤ) : (toString i).toList ≠ [] := by
  have hne : ∀ n, (Nat.repr n).toList ≠ [] := by
    intro n
    rw [Nat.toList_repr]
    exact Nat.toDigits_ne_nil
  cases i with
  | ofNat n => exact hne n
  | negSucc n =>
    change ("-" ++ Nat.repr (n+1)).toList ≠ []
    simp

namespace Json

/-- The text of a value that is a number. -/
def numberText (ft : FloatText) : Json → Option (List Char)
  | int i => some (toString i).toList
  | float f => some (ft.text f)
  | _ => none

lemma numberText_letters {ft : FloatText} {j : Json} (hj : j.finite = true) {l : List Char}
    (h : j.numberText ft = some l) : l ≠ [] ∧ ∀ c ∈ l, numberChar c = true := by
  cases j <;> cases h
  · rename_i i
    refine ⟨toList_int_ne_nil i,fun c hc => ?_⟩
    rcases numberChar_int i c hc with h | rfl
    · exact numberChar_of_isDigit h
    · rfl
  · rename_i f
    obtain ⟨c,hc,-⟩ := ft.fractional f hj
    exact ⟨List.ne_nil_of_mem hc,ft.number f hj⟩

lemma chars_of_numberText {ft : FloatText} {j : Json} {l : List Char}
    (h : j.numberText ft = some l) : j.chars ft = l := by
  cases j <;> cases h <;> rfl

/-- The letter that a value starts with, one for all numbers. -/
def opening : Json → Char
  | null => 'n'
  | bool true => 't'
  | bool false => 'f'
  | int _ => '0'
  | float _ => '0'
  | string _ => '"'
  | array _ => '['
  | object _ => '\x7b'

lemma opening_eq_null {j : Json} (h : j.opening = 'n') : j = null := by
  unfold opening at h
  split at h <;> first | rfl | exact absurd h (by decide)

lemma opening_eq_bool {j : Json} {b : Bool} (h : j.opening = (bool b).opening) : j = bool b := by
  cases b <;> unfold opening at h <;> split at h <;> first | rfl | exact absurd h (by decide)

lemma opening_eq_number {j : Json} (h : j.opening = '0') :
    (∃ i, j = int i) ∨ ∃ f, j = float f := by
  unfold opening at h
  split at h <;> first | exact .inl ⟨_,rfl⟩ | exact .inr ⟨_,rfl⟩ | exact absurd h (by decide)

lemma opening_eq_string {j : Json} (h : j.opening = '"') : ∃ s, j = string s := by
  unfold opening at h
  split at h <;> first | exact ⟨_,rfl⟩ | exact absurd h (by decide)

lemma opening_eq_array {j : Json} (h : j.opening = '[') : ∃ xs, j = array xs := by
  unfold opening at h
  split at h <;> first | exact ⟨_,rfl⟩ | exact absurd h (by decide)

lemma opening_eq_object {j : Json} (h : j.opening = '\x7b') : ∃ fs, j = object fs := by
  unfold opening at h
  split at h <;> first | exact ⟨_,rfl⟩ | exact absurd h (by decide)

lemma opening_ne_bracket (j : Json) : j.opening ≠ ']' := by
  unfold opening
  split <;> decide

lemma chars_opening (ft : FloatText) {j : Json} (hj : j.finite = true) :
    ∃ c r, j.chars ft = c::r ∧ (if numberChar c = true then '0' else c) = j.opening := by
  cases hn : j.numberText ft with
  | some l =>
    obtain ⟨hne,hall⟩ := numberText_letters hj hn
    obtain ⟨c,r,rfl⟩ := List.exists_cons_of_ne_nil hne
    refine ⟨c,r,chars_of_numberText hn,?_⟩
    rw [if_pos (hall c (.head _))]
    cases j <;> first | rfl | cases hn
  | none =>
    cases j with
    | null => exact ⟨_,_,rfl,rfl⟩
    | bool b => cases b <;> exact ⟨_,_,rfl,rfl⟩
    | int i => cases hn
    | float f => cases hn
    | string s => exact ⟨_,_,rfl,rfl⟩
    | array xs => exact ⟨_,_,rfl,rfl⟩
    | object fs => exact ⟨_,_,rfl,rfl⟩

lemma opening_eq {ft : FloatText} {j k : Json} (hj : j.finite = true) (hk : k.finite = true)
    {s t : List Char} (h : j.chars ft ++ s = k.chars ft ++ t) : j.opening = k.opening := by
  obtain ⟨c,r,hc,ho⟩ := chars_opening ft hj
  obtain ⟨c',r',hc',ho'⟩ := chars_opening ft hk
  rw [hc,hc'] at h
  rw [← ho,← ho',(List.cons.inj h).1]

lemma chars_startsOff {ft : FloatText} {j : Json} (hj : j.finite = true) {q : Char}
    (hn : numberChar q = false) (hq : j.opening ≠ q) : StartsOff q (j.chars ft) := by
  obtain ⟨c,r,hc,ho⟩ := chars_opening ft hj
  refine ⟨c,r,hc,?_⟩
  rintro rfl
  rw [if_neg (by simp [hn])] at ho
  exact hq ho.symm

/-- What may follow a number. -/
def NumberEnds (s : List Char) : Prop := ∀ c ∈ s.head?, numberChar c ≠ true

lemma numberEnds_of_follows {sep close : Char} (hsep : numberChar sep = false)
    (hclose : numberChar close = false) {s : List Char} (h : Follows sep close s) : NumberEnds s := by
  obtain ⟨r,rfl | rfl⟩ := h
  · rintro c ⟨⟩
    simp [hsep]
  · rintro c ⟨⟩
    simp [hclose]

lemma number_inj {ft : FloatText} {j k : Json} (hj : j.finite = true) (hk : k.finite = true)
    {l : List Char} (h : j.numberText ft = some l) (h' : k.numberText ft = some l) : j = k := by
  have hdot : ∀ i f, f.isFinite = true → (toString (i : ℤ)).toList ≠ ft.text f := by
    intro i f hf he
    obtain ⟨c,hc,hc'⟩ := ft.fractional f hf
    rcases numberChar_int i c (he ▸ hc) with h | rfl
    · rcases hc' with rfl | rfl <;> exact absurd h (by decide)
    · rcases hc' with hc' | hc' <;> exact absurd hc' (by decide)
  cases j with
  | int i =>
    cases h
    cases k with
    | int i' => rw [intToString_inj (String.toList_inj.mp (Option.some.inj h'))]
    | float f => exact absurd (Option.some.inj h').symm (hdot _ _ hk)
    | _ => cases h'
  | float f =>
    cases h
    cases k with
    | int i => exact absurd (Option.some.inj h') (hdot _ _ hj)
    | float f' => rw [ft.inj _ _ hj hk (Option.some.inj h').symm]
    | _ => cases h'
  | _ => cases h

/-- Values of one kind, up to their nested values. -/
lemma number_cancel {ft : FloatText} {j k : Json} (hj : j.finite = true) (hk : k.finite = true)
    (hjo : j.opening = '0') {s t : List Char} (hs : NumberEnds s) (ht : NumberEnds t)
    (h : j.chars ft ++ s = k.chars ft ++ t) : j = k ∧ s = t := by
  have hnum : ∀ v : Json, v.opening = '0' → ∃ l, v.numberText ft = some l := by
    intro v hv
    rcases opening_eq_number hv with ⟨i,rfl⟩ | ⟨f,rfl⟩ <;> exact ⟨_,rfl⟩
  obtain ⟨l,hl⟩ := hnum j hjo
  obtain ⟨l',hl'⟩ := hnum k ((opening_eq hj hk h).symm.trans hjo)
  rw [chars_of_numberText hl,chars_of_numberText hl'] at h
  obtain ⟨rfl,hst⟩ := span_cancel (P := fun c => numberChar c = true) (numberText_letters hj hl).2
    (numberText_letters hk hl').2 hs ht h
  exact ⟨number_inj hj hk hl hl',hst⟩

/-- A value is read back from its text wherever a number may end. -/
theorem chars_cancel {ft : FloatText} (j k : Json) (hj : j.finite = true) (hk : k.finite = true)
    {s t : List Char} (hs : NumberEnds s) (ht : NumberEnds t)
    (h : j.chars ft ++ s = k.chars ft ++ t) : j = k ∧ s = t := by
  have ho := (opening_eq hj hk h).symm
  induction j using Json.induction_on generalizing k s t with
  | int i => exact number_cancel hj hk rfl hs ht h
  | float f => exact number_cancel hj hk rfl hs ht h
  | null =>
    obtain rfl := opening_eq_null ho
    exact ⟨rfl,List.append_cancel_left h⟩
  | bool b =>
    obtain rfl := opening_eq_bool ho
    exact ⟨rfl,List.append_cancel_left h⟩
  | string x =>
    obtain ⟨y,rfl⟩ := opening_eq_string ho
    obtain ⟨rfl,hst⟩ := quoted_cancel h
    exact ⟨rfl,hst⟩
  | array xs ih =>
    obtain ⟨ys,rfl⟩ := opening_eq_array ho
    rw [finite,finiteList_iff] at hj hk
    simp only [chars,charsList_eq,List.cons_append,List.append_assoc,List.cons.injEq,true_and,
      List.nil_append] at h
    have hstart : ∀ a : Json, a.finite = true → StartsOff ']' (a.chars ft) :=
      fun a ha => chars_startsOff ha (by decide) a.opening_ne_bracket
    have hread : ∀ a ∈ xs, ∀ b ∈ ys, Reads ',' ']' (chars ft) (chars ft) Eq a b := by
      intro a ha b hb u v hu hv huv
      exact ih a ha b (hj a ha) (hk b hb) (numberEnds_of_follows (by decide) (by decide) hu)
        (numberEnds_of_follows (by decide) (by decide) hv) huv (opening_eq (hj a ha) (hk b hb) huv).symm
    obtain ⟨hxy,hst⟩ := join_cancel (by decide) (fun a ha => hstart a (hj a ha))
      (fun a ha => hstart a (hk a ha)) hread h
    rw [List.forall₂_eq_eq_eq] at hxy
    exact ⟨congrArg _ hxy,hst⟩
  | object fs ih =>
    obtain ⟨gs,rfl⟩ := opening_eq_object ho
    rw [finite,finiteFields_iff] at hj hk
    simp only [chars,charsFields_eq,List.cons_append,List.append_assoc,List.cons.injEq,true_and,
      List.nil_append] at h
    have hstart : ∀ f : String × Json, StartsOff '\x7d' (fieldChars ft f) :=
      fun f => ⟨'"',_,rfl,by decide⟩
    have hread : ∀ a ∈ fs, ∀ b ∈ gs, Reads ',' '\x7d' (fieldChars ft) (fieldChars ft) Eq a b := by
      intro a ha b hb u v hu hv huv
      rw [fieldChars,fieldChars,List.append_assoc,List.append_assoc] at huv
      obtain ⟨hkey,huv⟩ := quoted_cancel huv
      have hval := (List.cons.inj huv).2
      obtain ⟨heq,huv⟩ := ih a ha b.2 (hj a ha) (hk b hb)
        (numberEnds_of_follows (by decide) (by decide) hu)
        (numberEnds_of_follows (by decide) (by decide) hv) hval
        (opening_eq (hj a ha) (hk b hb) hval).symm
      exact ⟨Prod.ext hkey heq,huv⟩
    obtain ⟨hxy,hst⟩ := join_cancel (by decide) (fun a _ => hstart a) (fun a _ => hstart a) hread h
    rw [List.forall₂_eq_eq_eq] at hxy
    exact ⟨congrArg _ hxy,hst⟩

end Json

lemma OrderedFloat.ext_of_parts {f g : OrderedFloat} (hs : f.isNegative = g.isNegative)
    (hm : f.magnitude = g.magnitude) : f = g := by
  obtain ⟨x⟩ := f
  obtain ⟨y⟩ := g
  simp only [isNegative,magnitude,BitVec.msb_eq_decide,decide_eq_decide] at hs hm
  have hx := x.isLt
  have hy := y.isLt
  exact congrArg OrderedFloat.mk (BitVec.eq_of_toNat_eq (by omega))

/-- Positional notation throughout, as numbers of moderate size are written. -/
def FloatText.positional : FloatText where
  text f := (if f.isNegative then ['-'] else []) ++ Binary64.pointed f.magnitude
  number := by
    intro f _ c hc
    rw [List.mem_append] at hc
    rcases hc with hc | hc
    · cases hf : f.isNegative <;> simp [hf] at hc
      rw [hc]
      decide
    · rcases Binary64.positional_chars _ c hc with h | rfl
      · exact numberChar_of_isDigit h
      · decide
  fractional f _ := ⟨'.',List.mem_append_right _ (Binary64.point_mem_pointed _),.inl rfl⟩
  inj := by
    intro f g _ _ h
    have hsign : ∀ m n, '-' :: Binary64.pointed m ≠ Binary64.pointed n := by
      intro m n hm
      have hmem : '-' ∈ Binary64.pointed n := hm ▸ List.mem_cons_self ..
      rcases Binary64.positional_chars _ '-' hmem with h | h <;> exact absurd h (by decide)
    cases hf : f.isNegative <;> cases hg : g.isNegative <;> simp only [hf,hg] at h
    · exact OrderedFloat.ext_of_parts (hf.trans hg.symm) (Binary64.pointed_inj h)
    · exact absurd h.symm (hsign _ _)
    · exact absurd h (hsign _ _)
    · exact OrderedFloat.ext_of_parts (hf.trans hg.symm) (Binary64.pointed_inj (List.cons.inj h).2)

end ElectricCircuits
