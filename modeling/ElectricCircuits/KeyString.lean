import ElectricCircuits.Schema
import Mathlib.Data.List.Basic

/-! The key string of a row names it: rows whose primary keys differ have different key strings. -/
namespace ElectricCircuits

/-- A cell of a column's type; a NULL has none. -/
def Value.HasType : Value → ColumnType → Prop
  | .int _,.int => True
  | .text _,.text => True
  | .bool _,.bool => True
  | .float _,.float => True
  | _,_ => False

namespace Value.HasType
variable {v w : Value} {ty : ColumnType}

lemma ne_null (h : v.HasType ty) : v ≠ .null := by
  rintro rfl
  cases ty <;> cases h

/-- Values of one type have an order. -/
lemma rank_eq (hv : v.HasType ty) (hw : w.HasType ty) : v.rank = w.rank := by
  cases v <;> cases ty <;> try cases hv
  all_goals
    cases w <;> first | rfl | cases hw

end Value.HasType

lemma toList_repr_head (n : ℕ) : ∀ c ∈ (Nat.repr n).toList.head?, c.isDigit = true := by
  intro c hc
  rw [Nat.toList_repr] at hc
  exact Nat.isDigit_of_mem_toDigits (by norm_num) (by norm_num) (List.mem_of_mem_head? hc)

lemma neg_repr_ne (m n : ℕ) : "-" ++ Nat.repr m ≠ Nat.repr n := by
  intro h
  have hl := congrArg String.toList h
  rw [String.toList_append] at hl
  have hhead := toList_repr_head n '-' (by rw [← hl]; rfl)
  exact absurd hhead (by decide)

lemma intToString_inj {i j : ℤ} (h : toString i = toString j) : i = j := by
  change Int.repr i = Int.repr j at h
  cases i with
  | ofNat m =>
    cases j with
    | ofNat n => exact congrArg Int.ofNat (Binary64.repr_inj h)
    | negSucc n => exact absurd h.symm (neg_repr_ne _ _)
  | negSucc m =>
    cases j with
    | ofNat n => exact absurd h (neg_repr_ne _ _)
    | negSucc n =>
      have hl := congrArg String.toList h
      simp only [Int.repr,String.toList_append] at hl
      have hs := Binary64.repr_inj (String.toList_inj.mp (List.append_cancel_left hl))
      exact congrArg Int.negSucc (Nat.succ.inj hs)

namespace OrderedFloat

lemma isNan_of_isFinite {f : OrderedFloat} (h : f.isFinite = true) : f.isNan = false := by
  simp only [isFinite,isNan,decide_eq_true_eq,decide_eq_false_iff_not] at h ⊢
  omega

/-- The text of a magnitude that is a number. -/
def magnitudeText (m : ℕ) : List Char :=
  if m = 0x7FF0000000000000 then ['i','n','f']
  else if m = 0 then ['0']
  else Binary64.display m

lemma toList_toText (f : OrderedFloat) : f.toText.toList =
    if f.isNan then ['N','a','N']
    else (if f.isNegative then ['-'] else []) ++ magnitudeText f.magnitude := by
  rw [toText,magnitudeText]
  split_ifs <;> simp

/-- Only zero is written as `0`. -/
lemma display_ne_zero {m : ℕ} (hm : 0 < m) : Binary64.display m ≠ ['0'] := by
  intro h
  have hzero : Binary64.positional (0,0) = ['0'] := by decide
  have hdec := Binary64.positional_inj (h.trans hzero.symm)
  have hrounds := Binary64.shortest_roundsTo hm
  rw [hdec] at hrounds
  have hpos : (0 : ℚ) < Binary64.scaled m := by
    exact_mod_cast Nat.lt_of_le_of_lt (Nat.zero_le _) (Binary64.scaled_strictMono hm)
  have hlo : (0 : ℚ) < (Binary64.scaled (m-1)+Binary64.scaled m)/2 := by positivity
  simp only [Binary64.decimal,Nat.cast_zero,zero_mul] at hrounds
  rcases hrounds with ⟨h1,-⟩ | ⟨-,h1,-⟩ <;> linarith

lemma head?_magnitudeText (m : ℕ) : ∀ c ∈ (magnitudeText m).head?, c.isDigit = true ∨ c = 'i' := by
  intro c hc
  rw [magnitudeText] at hc
  split_ifs at hc
  · exact .inr (by simpa using hc.symm)
  · exact .inl (by obtain rfl : '0' = c := by simpa using hc
                   decide)
  · exact .inl (Binary64.head?_display m c hc)

lemma magnitudeText_inj {m n : ℕ} (h : magnitudeText m = magnitudeText n) : m = n := by
  have hinf : ∀ k, Binary64.display k ≠ ['i','n','f'] := by
    intro k hk
    have hdigit := Binary64.head?_display k 'i' (by rw [hk]; rfl)
    exact absurd hdigit (by decide)
  simp only [magnitudeText] at h
  split_ifs at h with hm hn hn hm0 hn hn0 hn hn0
  · exact hm.trans hn.symm
  · cases h
  · exact absurd h.symm (hinf n)
  · cases h
  · exact hm0.trans hn0.symm
  · exact absurd h.symm (display_ne_zero (Nat.pos_of_ne_zero hn0))
  · exact absurd h (hinf m)
  · exact absurd h (display_ne_zero (Nat.pos_of_ne_zero hm0))
  · exact Binary64.display_inj (Nat.pos_of_ne_zero hm0) (Nat.pos_of_ne_zero hn0) h

lemma nan_ne_text (m : ℕ) (b : Bool) : ['N','a','N'] ≠ (if b then ['-'] else []) ++ magnitudeText m := by
  intro h
  cases b with
  | true => cases h
  | false =>
    have hhead := head?_magnitudeText m 'N' (by rw [← List.nil_append (magnitudeText m)]; exact h ▸ rfl)
    exact absurd hhead (by decide)

lemma neg_ne_text (m n : ℕ) : '-' :: magnitudeText m ≠ magnitudeText n := by
  intro h
  have hhead := head?_magnitudeText n '-' (by rw [← h]; rfl)
  exact absurd hhead (by decide)

/-- A text that is not `NaN` has the sign and the magnitude of its number. -/
lemma parts_of_toText {f g : OrderedFloat} (hf : f.isNan = false) (hg : g.isNan = false)
    (h : f.toText = g.toText) : f.isNegative = g.isNegative ∧ f.magnitude = g.magnitude := by
  have hl := congrArg String.toList h
  rw [toList_toText,toList_toText] at hl
  simp only [hf,hg,Bool.false_eq_true,if_false] at hl
  cases hfs : f.isNegative <;> cases hgs : g.isNegative <;>
    simp only [hfs,hgs,if_true,Bool.false_eq_true,if_false,List.nil_append,List.singleton_append] at hl
  · exact ⟨rfl,magnitudeText_inj hl⟩
  · exact absurd hl.symm (neg_ne_text _ _)
  · exact absurd hl (neg_ne_text _ _)
  · exact ⟨rfl,magnitudeText_inj (List.cons.inj hl).2⟩

/-- Numbers with one text are in one place of the order. -/
theorem toText_inj {f g : OrderedFloat} (h : f.toText = g.toText) : f.key = g.key := by
  have hl := congrArg String.toList h
  rw [toList_toText,toList_toText] at hl
  simp only [key]
  cases hf : f.isNan <;> cases hg : g.isNan <;> simp only [hf,hg,if_true,Bool.false_eq_true,if_false] at hl ⊢
  · obtain ⟨hs,hm⟩ := parts_of_toText hf hg h
    rw [hs,hm]
  · exact absurd hl.symm (nan_ne_text _ _)
  · exact absurd hl (nan_ne_text _ _)

end OrderedFloat

/-- Within a type the key string of a cell determines the cell. -/
theorem Value.toKeyString_inj {v w : Value} {ty : ColumnType} (hv : v.HasType ty)
    (hw : w.HasType ty) (h : v.toKeyString = w.toKeyString) : v.code = w.code := by
  cases v <;> cases ty <;> try cases hv
  all_goals
    cases w <;> try cases hw
  · exact congrArg (fun i => code (.int i)) (intToString_inj h)
  · exact congrArg (fun s => code (.text s)) h
  · rename_i a b
    cases a <;> cases b <;> first | rfl | exact absurd h (by decide)
  · simp only [code,OrderedFloat.toText_inj h]

def escapeChar (c : Char) : List Char :=
  if c = '\\' then ['\\','\\'] else if c = pkSep then ['\\','x','1','f'] else [c]

lemma toList_escape (part : String) :
    (escapeKeyComponent part).toList = part.toList.flatMap escapeChar := by
  rw [escapeKeyComponent,String.toList_ofList]
  rfl

lemma pkSep_notMem_escape (part : String) : pkSep ∉ (escapeKeyComponent part).toList := by
  rw [toList_escape,List.mem_flatMap]
  rintro ⟨c,-,hc⟩
  rw [escapeChar] at hc
  split_ifs at hc with h h'
  · exact absurd hc (by decide)
  · exact absurd hc (by decide)
  · exact h' (List.mem_singleton.mp hc).symm

/-- No escape is the start of another one. -/
lemma escapeChar_append {c d : Char} {xs ys : List Char}
    (h : escapeChar c ++ xs = escapeChar d ++ ys) : c = d ∧ xs = ys := by
  simp only [escapeChar] at h
  split_ifs at h with hc hd hd' hc' hd hd' hd hd'
  all_goals
    simp only [List.cons_append,List.nil_append,List.cons.injEq] at h
  · exact ⟨hc.trans hd.symm,h.2.2⟩
  · exact absurd h.2.1 (by decide)
  · exact absurd h.1.symm hd
  · exact absurd h.2.1 (by decide)
  · exact ⟨hc'.trans hd'.symm,h.2.2.2.2⟩
  · exact absurd h.1.symm hd
  · exact absurd h.1 hc
  · exact absurd h.1 hc
  · exact ⟨h.1,h.2⟩

lemma escapeChar_ne_nil (c : Char) : escapeChar c ≠ [] := by
  rw [escapeChar]
  split_ifs <;> simp

lemma escapeKeyComponent_inj {s t : String} (h : escapeKeyComponent s = escapeKeyComponent t) :
    s = t := by
  have hl := congrArg String.toList h
  rw [toList_escape,toList_escape] at hl
  refine String.toList_inj.mp ?_
  have hinj : ∀ xs ys : List Char, xs.flatMap escapeChar = ys.flatMap escapeChar → xs = ys := by
    intro xs
    induction xs with
    | nil =>
      intro ys h
      cases ys with
      | nil => rfl
      | cons y ys => simp [escapeChar_ne_nil] at h
    | cons x xs ih =>
      intro ys h
      cases ys with
      | nil => simp [escapeChar_ne_nil] at h
      | cons y ys =>
        obtain ⟨rfl,hrest⟩ := escapeChar_append h
        rw [ih ys hrest]
  exact hinj _ _ hl

/-- The components can be read back from a composite key. -/
theorem joinKeyComponents_inj {ps qs : List String} (hp : ps ≠ []) (hq : qs ≠ [])
    (h : joinKeyComponents ps = joinKeyComponents qs) : ps = qs := by
  have hsplit : ∀ ps : List String, ps ≠ [] →
      (joinKeyComponents ps).toList.splitOn pkSep = ps.map fun p => (escapeKeyComponent p).toList := by
    intro ps hp
    rw [joinKeyComponents,String.toList_ofList]
    refine List.splitOn_intercalate pkSep ?_ (by simpa using hp)
    intro l hl
    obtain ⟨p,-,rfl⟩ := List.mem_map.mp hl
    exact pkSep_notMem_escape p
  have hmap := (hsplit ps hp).symm.trans ((congrArg (·.toList.splitOn pkSep) h).trans (hsplit qs hq))
  exact List.map_injective_iff.mpr
    (fun s t hst => escapeKeyComponent_inj (String.toList_inj.mp hst)) hmap

lemma Row.get_eq {r : Row} {i : ℕ} (h : i < r.cells.length) : r.get i = .ok (r.cell i) := by
  rw [Row.get,Row.cell,List.getD_eq_getElem?_getD,List.getElem?_eq_getElem h]
  rfl

namespace TableSchema
variable {ts : TableSchema}

/-- What the table promises of a row: a cell for each column, and key cells of their types. -/
structure IsRow (ts : TableSchema) (r : Row) : Prop where
  width : r.cells.length = ts.columns.length
  pk : ∀ i ∈ ts.pkCols, ∀ c, ts.columns[i]? = some c → (r.cell i).HasType c.2

/-- The primary key of a row, as values. -/
def identity (ts : TableSchema) (r : Row) : List (ℕ ×ₗ ℤ ×ₗ String) :=
  ts.pkCols.map fun i => (r.cell i).code

/-- The key string of a row that has one. -/
def name (ts : TableSchema) (r : Row) : String :=
  match ts.pkCols with
  | [i] => (r.cell i).toKeyString
  | cols => joinKeyComponents (cols.map fun i => (r.cell i).toKeyString)

lemma mapM_keyString {r : Row} {cols : List ℕ} (h : ∀ i ∈ cols, i < r.cells.length) :
    (cols.mapM fun i => (r.get i).map Value.toKeyString) =
      .ok (cols.map fun i => (r.cell i).toKeyString) := by
  induction cols with
  | nil => rfl
  | cons i cols ih =>
    obtain ⟨hi,hcols⟩ := List.forall_mem_cons.mp h
    rw [List.mapM_cons,ih hcols,Row.get_eq hi]
    rfl

lemma keyString_of_width {r : Row} (h : r.cells.length = ts.columns.length) :
    ts.keyString r = .ok (ts.name r) := by
  have hlt : ∀ i ∈ ts.pkCols, i < r.cells.length := fun i hi => h ▸ ts.pk_lt i hi
  rcases hcols : ts.pkCols with _ | ⟨i,_ | ⟨j,cols⟩⟩
  · exact absurd hcols ts.pk_ne_nil
  · rw [keyString,name,hcols]
    simp only [Row.get_eq (hlt i (by simp [hcols]))]
    rfl
  · rw [keyString,name,hcols]
    simp only [mapM_keyString (hcols ▸ hlt)]
    rfl

lemma keyString_eq {r : Row} (h : ts.IsRow r) : ts.keyString r = .ok (ts.name r) :=
  keyString_of_width h.width

lemma texts_of_name {r r' : Row} (h : ts.name r = ts.name r') :
    ∀ i ∈ ts.pkCols, (r.cell i).toKeyString = (r'.cell i).toKeyString := by
  rw [name,name] at h
  split at h
  · next i heq =>
    intro j hj
    obtain rfl : j = i := by simpa [heq] using hj
    exact h
  · have hne : ∀ r : Row, (ts.pkCols.map fun i => (r.cell i).toKeyString) ≠ [] := by
      simp [ts.pk_ne_nil]
    exact List.map_inj_left.mp (joinKeyComponents_inj (hne r) (hne r') h)

/-- Rows that share a key string share their primary key. -/
theorem name_inj {r r' : Row} (h : ts.IsRow r) (h' : ts.IsRow r') (hname : ts.name r = ts.name r') :
    ts.identity r = ts.identity r' := by
  refine List.map_inj_left.mpr fun i hi => ?_
  have hc := List.getElem?_eq_getElem (ts.pk_lt i hi)
  exact Value.toKeyString_inj (h.pk i hi _ hc) (h'.pk i hi _ hc) (texts_of_name hname i hi)

lemma fromJson_hasType {j : Json} {ty : ColumnType} {v : Value} (h : Value.fromJson j ty = .ok v) :
    v = .null ∨ v.HasType ty := by
  unfold Value.fromJson at h
  split at h
  · exact .inl (Except.ok.inj h).symm
  all_goals
    try split at h
  all_goals
    first
    | cases h; done
    | (obtain rfl := Except.ok.inj h
       exact .inr trivial)

lemma forall₂_of_mapM {α β : Type} {f : α → Except String β} {xs : List α} {ys : List β}
    (h : xs.mapM f = .ok ys) : List.Forall₂ (fun x y => f x = .ok y) xs ys := by
  induction xs generalizing ys with
  | nil =>
    obtain rfl := Except.ok.inj h
    exact .nil
  | cons x xs ih =>
    rw [List.mapM_cons] at h
    cases hx : f x with
    | error e =>
      rw [hx] at h
      cases h
    | ok y =>
      cases hxs : xs.mapM f with
      | error e =>
        rw [hx,hxs] at h
        cases h
      | ok ys' =>
        rw [hx,hxs] at h
        obtain rfl := Except.ok.inj h
        exact .cons hx (ih hxs)

lemma mapM_of_forall₂ {α β : Type} {f : α → Except String β} {xs : List α} {ys : List β}
    (h : List.Forall₂ (fun x y => f x = .ok y) xs ys) : xs.mapM f = .ok ys := by
  induction h with
  | nil => rfl
  | cons hx _ ih =>
    rw [List.mapM_cons,hx,ih]
    rfl

/-- The cells of a row that was read from JSON are those of its columns, or NULL. -/
lemma hasType_of_json {j : Json} {r : Row} (h : ts.rowFromJson j = .ok r) :
    r.cells.length = ts.columns.length ∧
      ∀ i c, ts.columns[i]? = some c → r.cell i = .null ∨ (r.cell i).HasType c.2 := by
  rw [rowFromJson] at h
  cases hcells : ts.columns.mapM fun c => Value.fromJson ((j.get? c.1).getD .null) c.2 with
  | error e =>
    rw [hcells] at h
    cases h
  | ok cells =>
    rw [hcells] at h
    obtain rfl := Except.ok.inj h
    obtain ⟨hlen,hget⟩ := List.forall₂_iff_get.mp (forall₂_of_mapM hcells)
    refine ⟨hlen.symm,fun i c hc => ?_⟩
    obtain ⟨hlt,rfl⟩ := List.getElem?_eq_some_iff.mp hc
    have hcell : Row.cell ⟨cells⟩ i = cells.get ⟨i,hlen ▸ hlt⟩ := by
      rw [Row.cell,List.getD_eq_getElem?_getD,List.getElem?_eq_getElem (hlen ▸ hlt)]
      rfl
    rw [hcell]
    exact fromJson_hasType (hget i hlt (hlen ▸ hlt))

/-- A row that was read from JSON and has no NULL in its key is one of the table. -/
theorem isRow_of_json {j : Json} {r : Row} (h : ts.rowFromJson j = .ok r)
    (hpk : ∀ i ∈ ts.pkCols, r.cell i ≠ .null) : ts.IsRow r where
  width := (hasType_of_json h).1
  pk i hi c hc := ((hasType_of_json h).2 i c hc).resolve_left (hpk i hi)

end TableSchema
end ElectricCircuits
