import ElectricCircuits.Lib.Formula
import ElectricCircuits.PostgresReading
import ElectricCircuits.RowImage
import ElectricCircuits.SqlExprs

/-! One comparison of a column with a literal, as it is compiled and as it is written into a WHERE, and when the
two readings differ on a row. -/
namespace ElectricCircuits
open ThreeValued SqlExpr

/-- Postgres reads a text as this double. -/
def Postgres.Reads (pg : Postgres) (s : String) (f : OrderedFloat) : Prop := ∃ g, pg.float8 s = some g ∧ g.key = f.key

/-- Postgres reads the number that a literal is, as the JSON writer spells it. -/
def Postgres.ReadsLiteral (pg : Postgres) (ft : FloatText) (l : Literal) : Prop :=
  match l.json with
  | .int i => pg.Reads (toString i) (.ofInt i)
  | .float f => pg.Reads (String.ofList (ft.text f)) f
  | _ => True

namespace SqlLiteral

/-- A literal in the text; a text goes into a parameter. -/
def operand : SqlLiteral → Operand String
  | .null => .plain .null []
  | .bool b => .plain (.bool b) []
  | .number s => numberOperand s
  | .text s => .plain (.param s) []

end SqlLiteral

/-- A name in the place of a literal. -/
def Named (b : Operand String) : Prop := ∃ s, b = .plain (.bare s) [] ∨ b = .neg (.bare s)

/-- A literal of a column's type and how it is written: numbers as numerals, doubles that are not finite as bare
names, texts and what a text is coerced to as parameters. -/
inductive WrittenAs (pg : Postgres) (ty : ColumnType) : Value → SqlLiteral → Prop where
  | null : WrittenAs pg ty .null .null
  | bool (b : Bool) (hty : ty = .bool) : WrittenAs pg ty (.bool b) (.bool b)
  | numeral {v w : Value} {s : String} (hs : Spelled s) (hv : v.HasType ty) (hty : ty ≠ .text)
    (hw : pg.numeralAs ty s = some w) (hcode : w.code = v.code) : WrittenAs pg ty v (.number s)
  | named {v : Value} {s : String} (hs : Named (numberOperand s)) (hv : v.HasType ty) (hty : ty ≠ .text) :
    WrittenAs pg ty v (.number s)
  | text (s : String) (hty : ty = .text) : WrittenAs pg ty (.text s) (.text s)
  | coerced {v : Value} (s : String) (hv : v.HasType ty) (hty : ty ≠ .text) : WrittenAs pg ty v (.text s)

open Classical in
/-- What the evaluator makes of two values, `none` for unknown: the order of the type is that of integers, of code
points and of doubles. -/
noncomputable def imageAnswer (cell : Value) (op : LeafOp) (v : Value) : Option Bool :=
  if cell = .null ∨ v = .null then none
  else if op = .like then
    match cell,v with
    | .text c,.text s => some (decide (ScanLike s.toList c.toList))
    | _,_ => none
  else some (op.holds (compare cell.code v.code))

namespace Postgres
variable (pg : Postgres) (t : PgTable) (row : Row)

/-- What Postgres makes of a comparison as it is written; `known` is the native type of the column as the writer
knows it. -/
noncomputable def written (idx : ℕ) (op : LeafOp) (known : Option String) : SqlLiteral → Option Truth
  | .text s =>
    match known with
    | none => pg.cellText (row.cell idx) (pg.columnText t row idx) op s
    | some type => pg.castTruth t row (op.isOrdering && t.isCollatableText idx) idx op s type
  | w => pg.inlineTruth t row idx op w.operand

/-- The backslash is an escape to Postgres and a character to the evaluator, and the evaluator lets a `%` that meets
a literal `%` stand for that one only. -/
def LikeMisread (c s : String) : Prop :=
  if danglingEscape s.toList then ∃ b, pg.dangling c s = some b ∧ ¬(ScanLike s.toList c.toList ↔ b = true)
  else ¬(ScanLike s.toList c.toList ↔ EscapedLike s.toList c.toList)

/-- Of two texts only a LIKE is misread. -/
def TextMisread (cell : Value) (op : LeafOp) (s : String) : Prop :=
  op = .like ∧ ∃ c, cell = .text c ∧ pg.LikeMisread c s

/-- A pattern that ends in its escape, and that Postgres refuses against the text of a cell. -/
def TextRefused (cell : Value) (c : String) (op : LeafOp) (s : String) : Prop :=
  op = .like ∧ cell ≠ .null ∧ danglingEscape s.toList = true ∧ pg.dangling c s = none

/-- A column of a type that is not the engine's own, whose value compares with that of the operand otherwise than
the engine's images of the two do; an operand may also be NULL there, as the name of a column. -/
def ForeignMisread (odd : Bool) (type : String) (collated : Bool) (idx : ℕ) (op : LeafOp) (v : Value)
    (b : Operand String) : Prop :=
  row.cell idx ≠ .null ∧ ∃ w, pg.nativeOf row type b = some w ∧
    match w with
    | none => Formula.Differ odd (imageAnswer (row.cell idx) op v) none
    | some w => ∃ a, pg.nativeAnswer type collated op (pg.stored row idx) w = some a ∧
        Formula.Differ odd (imageAnswer (row.cell idx) op v) (some a)

/-- An operator that such a type does not have, an operand that it does not read, and a pattern that it refuses. -/
def ForeignRefused (type : String) (idx : ℕ) (op : LeafOp) (b : Operand String) : Prop :=
  pg.supports type op = false ∨ pg.nativeOf row type b = none ∨
    op = .like ∧ row.cell idx ≠ .null ∧
      ∃ w, pg.nativeOf row type b = some (some w) ∧ pg.likes type (pg.stored row idx) w = none

/-- A comparison that shows otherwise in Postgres: a LIKE that escapes; a text against a column of another type, where
the texts of the two compare otherwise than their values if the native type is not known, and the value that the input
of the type reads compares otherwise than the engine's if it is; a double that is not finite, read as the name of a
column with another value; and a type of the column whose values compare in their own way. -/
def Misread (odd : Bool) (idx : ℕ) (op : LeafOp) (known : Option String) (v : Value) : SqlLiteral → Prop
  | .text s =>
    match known with
    | none =>
      if t.columnType idx = .text ∧ t.foreignType idx = none then pg.TextMisread (row.cell idx) op s
      else row.cell idx ≠ .null ∧ ∃ b, pg.textAnswer (pg.columnText t row idx) op s = some b ∧
        Formula.Differ odd (imageAnswer (row.cell idx) op v) (some b)
    | some type =>
      if type ∈ (t.columnType idx).own then
        if t.columnType idx = .text then pg.TextMisread (row.cell idx) op s
        else ∃ w, pg.inputAs (t.columnType idx) type s = some w ∧
          Formula.Differ odd (imageAnswer (row.cell idx) op v) (imageAnswer (row.cell idx) op w)
      else pg.ForeignMisread row odd type (op.isOrdering && t.isCollatableText idx) idx op v (.plain (.param s) [])
  | w =>
    match t.foreignType idx with
    | some type => pg.ForeignMisread row odd type false idx op v w.operand
    | none => Named w.operand ∧ ∃ x, pg.operandAs t row (t.columnType idx) w.operand = some x ∧
        Formula.Differ odd (imageAnswer (row.cell idx) op v) (imageAnswer (row.cell idx) op x)

/-- A comparison that Postgres refuses: a LIKE on a column that is not a text; a text that the input of the column's
type does not read; a double that is not finite, where no column of the type has its name; and what a text or another
type refuses. -/
def Refused (idx : ℕ) (op : LeafOp) (known : Option String) : SqlLiteral → Prop
  | .text s =>
    match known with
    | none => pg.TextRefused (row.cell idx) (pg.columnText t row idx) op s
    | some type =>
      if type ∈ (t.columnType idx).own then
        if t.columnType idx = .text then pg.TextRefused (row.cell idx) (pg.textOf (row.cell idx)) op s
        else op = .like ∨ pg.inputAs (t.columnType idx) type s = none
      else pg.ForeignRefused row type idx op (.plain (.param s) [])
  | w =>
    match t.foreignType idx with
    | some type => pg.ForeignRefused row type idx op w.operand
    | none => (op = .like ∧ t.columnType idx ≠ .text) ∨
        (Named w.operand ∧ pg.operandAs t row (t.columnType idx) w.operand = none)

variable {pg : Postgres} {t : PgTable} {row : Row} {odd : Bool} {idx : ℕ} {op : LeafOp} {known : Option String}

lemma null_iff_of_code {v w : Value} (h : w.code = v.code) : w = .null ↔ v = .null := by
  rw [← Value.eqv_null,← Value.eqv_null,Value.eqv_iff_code,Value.eqv_iff_code,h]

lemma sqlCmp_congr (cell : Value) {v w : Value} (hop : op ≠ .like) (h : w.code = v.code) :
    sqlCmp cell op w = sqlCmp cell op v := by
  have hrank : w.rank = v.rank := congrArg (fun c => (ofLex c).1) h
  cases op with
  | like => exact absurd rfl hop
  | _ => simp only [sqlCmp,null_iff_of_code h,h,hrank]

lemma operandAs_spelled {s : String} (hs : Spelled s) (ty : ColumnType) :
    pg.operandAs t row ty (numberOperand s) = pg.numeralAs ty s := by
  obtain ⟨r,-,⟨hr,hsr⟩ | ⟨hr,hsr⟩⟩ := numberOperand_spelled hs
  · rw [hr,hsr,operandAs]
  · rw [hr,hsr,operandAs]

lemma as_typed {ty : ColumnType} {x w : Value} (h : as ty x = some w) : w = .null ∨ w.HasType ty := by
  cases x <;> cases ty <;> cases h <;> first | exact .inl rfl | exact .inr trivial

lemma inputAs_typed {ty : ColumnType} {type s : String} {w : Value} (h : pg.inputAs ty type s = some w) :
    w = .null ∨ w.HasType ty := by
  obtain ⟨x,-,hx⟩ := Option.bind_eq_some_iff.mp h
  exact as_typed hx

lemma operandAs_named_typed {ty : ColumnType} {b : Operand String} (hb : Named b) {w : Value}
    (h : pg.operandAs t row ty b = some w) : w = .null ∨ w.HasType ty := by
  obtain ⟨s,rfl | rfl⟩ := hb
  · obtain ⟨x,-,hx⟩ := Option.bind_eq_some_iff.mp h
    exact as_typed hx
  · obtain ⟨x,-,hx⟩ := Option.bind_eq_some_iff.mp h
    exact as_typed hx

/-- The evaluator makes of two values of a type what `imageAnswer` says. -/
lemma cmp_image {cell v : Value} {ty : ColumnType} (hcell : cell = .null ∨ cell.HasType ty)
    (hv : v = .null ∨ v.HasType ty) : (cmp cell op v).truth = Truth.ofAnswer (imageAnswer cell op v) := by
  unfold imageAnswer
  by_cases hnull : cell = .null ∨ v = .null
  · rw [if_pos hnull]
    simp [cmp,hnull,Tri.truth,Truth.ofAnswer]
  · obtain ⟨hcn,hvn⟩ := not_or.mp hnull
    have hrank := (hcell.resolve_left hcn).rank_eq (hv.resolve_left hvn)
    rw [if_neg hnull]
    by_cases hop : op = .like
    · subst hop
      rw [if_pos rfl]
      cases cell with
      | text c =>
        cases v with
        | text s =>
          have hlike : likeMatch c s = true ↔ ScanLike s.toList c.toList := likeMatch_iff c s
          simp [cmp,Truth.ofAnswer,← hlike]
        | _ => cases hrank
      | _ => cases v <;> simp [cmp,Truth.ofAnswer,Tri.truth]
    · rw [if_neg hop,cmp_truth _ _ _ hop,sqlCmp_eq_holds hop hcn hvn hrank]
      rfl

lemma sqlCmp_image {cell w : Value} {ty : ColumnType} (hop : op ≠ .like) (hcell : cell = .null ∨ cell.HasType ty)
    (hw : w = .null ∨ w.HasType ty) : sqlCmp cell op w = Truth.ofAnswer (imageAnswer cell op w) := by
  rw [← cmp_truth _ _ _ hop,cmp_image hcell hw]

lemma imageAnswer_null (op : LeafOp) (v : Value) : imageAnswer .null op v = none := if_pos (.inl rfl)

lemma textAnswer_eq_none {c s : String} :
    pg.textAnswer c op s = none ↔ op = .like ∧ danglingEscape s.toList = true ∧ pg.dangling c s = none := by
  unfold textAnswer likeText
  by_cases hop : op = .like <;> by_cases hs : danglingEscape s.toList = true <;> simp [hop,hs]

lemma cellText_eq_none {cell : Value} {c s : String} :
    pg.cellText cell c op s = none ↔ pg.TextRefused cell c op s := by
  rw [cellText,TextRefused]
  split_ifs with hcell
  · simp [hcell]
  · rw [Option.map_eq_none_iff,textAnswer_eq_none]
    simp [hcell]

/-- A cell by its text: it shows otherwise where the texts compare otherwise than the values. -/
lemma readAs_cellText {cell v : Value} {ty : ColumnType} {c s : String} (hcell : cell = .null ∨ cell.HasType ty)
    (hv : v = .null ∨ v.HasType ty) :
    Formula.ReadAs odd (cmp cell op v).truth (pg.cellText cell c op s) (pg.TextRefused cell c op s)
      (cell ≠ .null ∧ ∃ b, pg.textAnswer c op s = some b ∧ Formula.Differ odd (imageAnswer cell op v) (some b)) := by
  refine ⟨cellText_eq_none,fun u hu => ?_⟩
  rw [cmp_image hcell hv]
  rw [cellText] at hu
  split_ifs at hu with hnull
  · obtain rfl := Option.some.inj hu
    rw [hnull,imageAnswer_null]
    exact iff_of_true Iff.rfl fun h => h.1 rfl
  · obtain ⟨b,hb,rfl⟩ := Option.map_eq_some_iff.mp hu
    have hdiffer : (cell ≠ .null ∧ ∃ b', pg.textAnswer c op s = some b' ∧
        Formula.Differ odd (imageAnswer cell op v) (some b')) ↔
          Formula.Differ odd (imageAnswer cell op v) (some b) := by
      simp [hnull,hb]
    rw [hdiffer,Formula.differ_iff,not_not]
    rfl

/-- A text against a column of texts. -/
lemma readAs_text {cell : Value} {s : String} (hcell : cell = .null ∨ cell.HasType .text) :
    Formula.ReadAs odd (cmp cell op (.text s)).truth (pg.cellText cell (pg.textOf cell) op s)
      (pg.TextRefused cell (pg.textOf cell) op s) (pg.TextMisread cell op s) := by
  have hread : Formula.ReadAs odd (cmp cell op (.text s)).truth (pg.cellText cell (pg.textOf cell) op s) _ _ :=
    readAs_cellText hcell (.inr trivial)
  refine ⟨hread.refused,fun u hu => (hread.misread u hu).trans (not_congr ?_)⟩
  rcases hcell with rfl | hcell
  · simp [TextMisread]
  · cases cell with
    | text c =>
      have hcompare : compare (Value.text c).code (Value.text s).code = compare c s := by
        have h := Value.ordering_eq (.text c) (.text s)
        rw [if_pos ⟨rfl,by simp⟩,Value.ordering] at h
        exact (Option.some.inj h).symm
      unfold TextMisread imageAnswer
      rw [textOf]
      by_cases hop : op = .like
      · subst hop
        unfold textAnswer likeText LikeMisread
        by_cases hs : danglingEscape s.toList = true
        · simp [hs,Formula.Differ]
        · simp [hs,Formula.Differ]
      · simp [hop,textAnswer,hcompare,Formula.Differ]
    | _ => cases hcell

/-- A column of a type that is not the engine's own. -/
lemma readAs_foreign {v : Value} {ty : ColumnType} {type : String} {collated : Bool} {b : Operand String}
    (hcell : row.cell idx = .null ∨ (row.cell idx).HasType ty) (hv : v = .null ∨ v.HasType ty) :
    Formula.ReadAs odd (cmp (row.cell idx) op v).truth (pg.foreignTruth row type collated idx op b)
      (pg.ForeignRefused row type idx op b) (pg.ForeignMisread row odd type collated idx op v b) := by
  have hskip : ∀ m : Prop, row.cell idx = .null →
      ((Formula.Shows odd (.ofAnswer (imageAnswer (row.cell idx) op v)) ↔ Formula.Shows odd .maybe) ↔
        ¬(row.cell idx ≠ .null ∧ m)) := by
    intro m hnull
    rw [hnull,imageAnswer_null]
    exact iff_of_true Iff.rfl fun h => h.1 rfl
  rw [cmp_image hcell hv,foreignTruth,ForeignRefused,ForeignMisread]
  cases hop : pg.supports type op with
  | false =>
    rw [if_neg Bool.false_ne_true]
    exact ⟨iff_of_true rfl (.inl rfl),nofun⟩
  | true =>
    rw [if_pos rfl]
    rcases pg.nativeOf row type b with _ | _ | w
    · exact ⟨iff_of_true rfl (.inr (.inl rfl)),nofun⟩
    · refine ⟨by simp,?_⟩
      rintro u ⟨⟩
      by_cases hnull : row.cell idx = .null
      · exact hskip _ hnull
      · simp only [hnull,not_false_eq_true,true_and,ne_eq,Option.some.injEq,exists_eq_left',Formula.differ_iff]
        exact not_not.symm
    · by_cases hnull : row.cell idx = .null
      · dsimp only
        rw [if_pos hnull]
        refine ⟨by simp [hnull],?_⟩
        rintro u ⟨⟩
        exact hskip _ hnull
      · dsimp only
        rw [if_neg hnull]
        constructor
        · rw [Option.map_eq_none_iff,nativeAnswer]
          by_cases hlike : op = .like <;> simp [hlike,hnull]
        · intro u hu
          obtain ⟨a,ha,rfl⟩ := Option.map_eq_some_iff.mp hu
          simp only [hnull,not_false_eq_true,true_and,ne_eq,Option.some.injEq,exists_eq_left',ha,Formula.differ_iff]
          exact not_not.symm

/-- A text that is cast to the type of the column. -/
lemma readAs_input {v : Value} {ty : ColumnType} {cell : Value} {type s : String}
    (hcell : cell = .null ∨ cell.HasType ty) (hv : v = .null ∨ v.HasType ty) :
    Formula.ReadAs odd (cmp cell op v).truth (if op = .like then none else (pg.inputAs ty type s).map (sqlCmp cell op))
      (op = .like ∨ pg.inputAs ty type s = none)
      (∃ w, pg.inputAs ty type s = some w ∧ Formula.Differ odd (imageAnswer cell op v) (imageAnswer cell op w)) := by
  split_ifs with hop
  · exact ⟨iff_of_true rfl (.inl hop),nofun⟩
  · constructor
    · rw [Option.map_eq_none_iff]
      exact ⟨.inr,fun h => h.resolve_left hop⟩
    · intro u hu
      obtain ⟨w,hw,rfl⟩ := Option.map_eq_some_iff.mp hu
      rw [cmp_image hcell hv,sqlCmp_image hop hcell (inputAs_typed hw)]
      simp only [hw,Option.some.injEq,exists_eq_left',Formula.differ_iff]
      exact not_not.symm

/-- What is written out: a name is the column's, and everything else the literal's value. -/
lemma readAs_inline {lit : SqlLiteral} {v : Value} (hforeign : t.foreignType idx = none)
    (hcell : row.cell idx = .null ∨ (row.cell idx).HasType (t.columnType idx))
    (hv : v = .null ∨ v.HasType (t.columnType idx))
    (hlit : ¬Named lit.operand → ∃ w, pg.operandAs t row (t.columnType idx) lit.operand = some w ∧ w.code = v.code)
    (hlike : op = .like → t.columnType idx = .text → v = .null ∧ ¬Named lit.operand) :
    Formula.ReadAs odd (cmp (row.cell idx) op v).truth (pg.inlineTruth t row idx op lit.operand)
      ((op = .like ∧ t.columnType idx ≠ .text) ∨
        (Named lit.operand ∧ pg.operandAs t row (t.columnType idx) lit.operand = none))
      (Named lit.operand ∧ ∃ x, pg.operandAs t row (t.columnType idx) lit.operand = some x ∧
        Formula.Differ odd (imageAnswer (row.cell idx) op v) (imageAnswer (row.cell idx) op x)) := by
  rw [inlineTruth]
  simp only [hforeign]
  by_cases hop : op = .like ∧ t.columnType idx ≠ .text
  · rw [if_pos hop]
    exact ⟨iff_of_true rfl (.inl hop),nofun⟩
  rw [if_neg hop]
  by_cases hnamed : Named lit.operand
  · have hne : op ≠ .like := fun h => (hlike h (by_contra fun h' => hop ⟨h,h'⟩)).2 hnamed
    constructor
    · rw [Option.map_eq_none_iff]
      exact ⟨fun h => .inr ⟨hnamed,h⟩,fun h => (h.resolve_left hop).2⟩
    · intro u hu
      obtain ⟨x,hx,rfl⟩ := Option.map_eq_some_iff.mp hu
      rw [cmp_image hcell hv,sqlCmp_image hne hcell (operandAs_named_typed hnamed hx)]
      simp only [hnamed,hx,true_and,Option.some.injEq,exists_eq_left',Formula.differ_iff]
      exact not_not.symm
  · obtain ⟨w,hw,hcode⟩ := hlit hnamed
    rw [hw,Option.map_some]
    refine ⟨iff_of_false nofun fun h => h.elim hop fun h => hnamed h.1,?_⟩
    rintro u ⟨⟩
    refine iff_of_true ?_ fun h => hnamed h.1
    by_cases h : op = .like
    · have hvn := (hlike h (by_contra fun h' => hop ⟨h,h'⟩)).1
      have hwn := (null_iff_of_code hcode).mpr hvn
      rw [hvn,hwn]
      simp [cmp,sqlCmp,Tri.truth]
    · rw [cmp_truth _ _ _ h,sqlCmp_congr _ h hcode]

section WrittenAs
variable {ty : ColumnType} {v : Value} {lit : SqlLiteral}

lemma typed_of_writtenAs (h : WrittenAs pg ty v lit) : v = .null ∨ v.HasType ty := by
  cases h with
  | null => exact .inl rfl
  | bool b hty => exact .inr (by rw [hty]; trivial)
  | numeral hs hv => exact .inr hv
  | named hs hv => exact .inr hv
  | text s hty => exact .inr (by rw [hty]; trivial)
  | coerced s hv => exact .inr hv

/-- A literal that is written out and not as a name is read as a value that compares as it does. -/
lemma operandAs_of_writtenAs (h : WrittenAs pg ty v lit) (hlit : ∀ s, lit ≠ .text s) (hnamed : ¬Named lit.operand) :
    ∃ w, pg.operandAs t row ty lit.operand = some w ∧ w.code = v.code := by
  cases h with
  | null => exact ⟨.null,rfl,rfl⟩
  | bool b hty => exact ⟨.bool b,by rw [hty]; rfl,rfl⟩
  | numeral hs hv hty hw hcode => exact ⟨_,(operandAs_spelled hs _).trans hw,hcode⟩
  | named hs => exact absurd hs hnamed
  | text s => exact absurd rfl (hlit s)
  | coerced s => exact absurd rfl (hlit s)

/-- Of a text only NULL is written out. -/
lemma null_of_writtenAs_text (h : WrittenAs pg .text v lit) (hlit : ∀ s, lit ≠ .text s) :
    v = .null ∧ ¬Named lit.operand := by
  cases h with
  | null => exact ⟨rfl,by rintro ⟨s,h | h⟩ <;> cases h⟩
  | bool b hty => cases hty
  | numeral hs hv hty => exact absurd rfl hty
  | named hs hv hty => exact absurd rfl hty
  | text s => exact absurd rfl (hlit s)
  | coerced s => exact absurd rfl (hlit s)

end WrittenAs

/-- A comparison shows in Postgres what it shows to the evaluator exactly when it is neither refused nor misread. -/
theorem readAs_written {lit : SqlLiteral} {v : Value}
    (hcell : row.cell idx = .null ∨ (row.cell idx).HasType (t.columnType idx))
    (hw : WrittenAs pg (t.columnType idx) v lit) :
    Formula.ReadAs odd (cmp (row.cell idx) op v).truth (pg.written t row idx op known lit)
      (pg.Refused t row idx op known lit) (pg.Misread t row odd idx op known v lit) := by
  have hv := typed_of_writtenAs hw
  have hinline : (∀ s, lit ≠ .text s) →
      Formula.ReadAs odd (cmp (row.cell idx) op v).truth (pg.inlineTruth t row idx op lit.operand)
        (match t.foreignType idx with
          | some type => pg.ForeignRefused row type idx op lit.operand
          | none => (op = .like ∧ t.columnType idx ≠ .text) ∨
              (Named lit.operand ∧ pg.operandAs t row (t.columnType idx) lit.operand = none))
        (match t.foreignType idx with
          | some type => pg.ForeignMisread row odd type false idx op v lit.operand
          | none => Named lit.operand ∧ ∃ x, pg.operandAs t row (t.columnType idx) lit.operand = some x ∧
              Formula.Differ odd (imageAnswer (row.cell idx) op v) (imageAnswer (row.cell idx) op x)) := by
    intro htext
    cases hforeign : t.foreignType idx with
    | some type =>
      rw [inlineTruth]
      simp only [hforeign]
      exact readAs_foreign hcell hv
    | none =>
      refine readAs_inline hforeign hcell hv (operandAs_of_writtenAs hw htext) fun _ hty => ?_
      rw [hty] at hw
      exact null_of_writtenAs_text hw htext
  cases lit with
  | null => exact hinline (by simp)
  | bool b => exact hinline (by simp)
  | number s => exact hinline (by simp)
  | text s =>
    have hown : t.columnType idx = .text →
        Formula.ReadAs odd (cmp (row.cell idx) op v).truth (pg.cellText (row.cell idx) (pg.textOf (row.cell idx)) op s)
          (pg.TextRefused (row.cell idx) (pg.textOf (row.cell idx)) op s) (pg.TextMisread (row.cell idx) op s) := by
      intro hty
      rw [hty] at hw hcell
      cases hw with
      | text => exact readAs_text hcell
      | coerced _ _ hne => exact absurd rfl hne
    cases known with
    | none =>
      change Formula.ReadAs odd _ (pg.cellText (row.cell idx) (pg.columnText t row idx) op s)
        (pg.TextRefused (row.cell idx) (pg.columnText t row idx) op s) (if _ then _ else _)
      by_cases h : t.columnType idx = .text ∧ t.foreignType idx = none
      · have hcolumn : pg.columnText t row idx = pg.textOf (row.cell idx) := by
          rw [columnText]
          simp only [h.2]
        rw [if_pos h,hcolumn]
        exact hown h.1
      · rw [if_neg h]
        exact readAs_cellText hcell hv
    | some type =>
      change Formula.ReadAs odd _ (pg.castTruth t row _ idx op s type) (if _ then _ else _) (if _ then _ else _)
      rw [castTruth]
      by_cases htype : type ∈ (t.columnType idx).own
      · simp only [if_pos htype]
        by_cases hty : t.columnType idx = .text
        · simp only [if_pos hty]
          exact hown hty
        · simp only [if_neg hty]
          exact readAs_input hcell hv
      · simp only [if_neg htype]
        exact readAs_foreign hcell hv

/-- Without a backslash in the pattern nothing is escaped. -/
lemma escapedLike_iff {p : List Char} (hp : '\\' ∉ p) : ∀ t, EscapedLike p t ↔ SqlLike p t := by
  induction p with
  | nil => exact fun t => Iff.rfl
  | cons d p ih =>
    obtain ⟨hd,hp⟩ := not_or.mp (mt List.mem_cons.mpr hp)
    intro t
    cases p with
    | nil =>
      rw [EscapedLike,if_neg (Ne.symm hd),SqlLike]
      split
      · exact iff_of_true trivial ⟨[],List.nil_suffix,rfl⟩
      · simp [SqlLike]
    | cons e p =>
      rw [EscapedLike,if_neg (Ne.symm hd),SqlLike]
      simp only [ih hp]

lemma danglingEscape_eq_false {p : List Char} (hp : '\\' ∉ p) : danglingEscape p = false := by
  induction p with
  | nil => rfl
  | cons d p ih =>
    obtain ⟨hd,hp⟩ := not_or.mp (mt List.mem_cons.mpr hp)
    cases p with
    | nil => simpa [danglingEscape] using Ne.symm hd
    | cons e p => rw [danglingEscape,if_neg (Ne.symm hd),ih hp]

/-- A pattern without a backslash is not misread on a text without a `%`. -/
lemma not_likeMisread {c s : String} (hs : '\\' ∉ s.toList) (hc : '%' ∉ c.toList) : ¬pg.LikeMisread c s := by
  rw [LikeMisread,danglingEscape_eq_false hs,if_neg Bool.false_ne_true,not_not,escapedLike_iff hs]
  exact scanLike_iff_sqlLike hc

lemma not_differ_congr {cell v w : Value} (hop : op ≠ .like) (h : w.code = v.code) :
    ¬Formula.Differ odd (imageAnswer cell op v) (imageAnswer cell op w) := by
  have hsame : imageAnswer cell op w = imageAnswer cell op v := by
    unfold imageAnswer
    simp only [if_neg hop,null_iff_of_code h,h]
  rw [hsame,Formula.differ_iff,not_not]

/-- The ordinary comparisons are neither refused nor misread: on a column of one of the engine's own types, or of an
unknown one, with a literal of the column's type that is no infinite double, or with a text that the input of the type
reads as the engine does; and LIKE on texts, with neither a backslash in the pattern nor a `%` in the text. -/
theorem not_misread {lit : SqlLiteral} {v : Value} (hforeign : t.foreignType idx = none)
    (hknown : known = none ∨ known = t.pgTypeAt idx) (hname : ¬Named lit.operand)
    (htext : ∀ s, lit = .text s → t.columnType idx = .text ∨ ∃ type w, known = some type ∧
      pg.inputAs (t.columnType idx) type s = some w ∧ w.code = v.code)
    (hlike : op = .like → t.columnType idx = .text ∧
      ∀ s, lit = .text s → '\\' ∉ s.toList ∧ ∀ c, row.cell idx = .text c → '%' ∉ c.toList) :
    ¬pg.Refused t row idx op known lit ∧ ¬pg.Misread t row odd idx op known v lit := by
  have hinline : ¬((op = .like ∧ t.columnType idx ≠ .text) ∨ (Named lit.operand ∧
      pg.operandAs t row (t.columnType idx) lit.operand = none)) :=
    fun h => h.elim (fun h => h.2 (hlike h.1).1) fun h => hname h.1
  cases lit with
  | text s =>
    have hrefused : ∀ c, ¬pg.TextRefused (row.cell idx) c op s := by
      rintro c ⟨hop,-,hs,-⟩
      rw [danglingEscape_eq_false ((hlike hop).2 s rfl).1] at hs
      cases hs
    have hpattern : ¬pg.TextMisread (row.cell idx) op s := by
      rintro ⟨hop,c,hc,h⟩
      obtain ⟨hs,htext⟩ := (hlike hop).2 s rfl
      exact not_likeMisread hs (htext c hc) h
    cases known with
    | none =>
      have hty : t.columnType idx = .text := (htext s rfl).resolve_right (by rintro ⟨_,_,⟨⟩,_⟩)
      refine ⟨hrefused _,?_⟩
      change ¬(if _ then _ else _)
      rwa [if_pos ⟨hty,hforeign⟩]
    | some type =>
      have hown : type ∈ (t.columnType idx).own := by
        rw [PgTable.foreignType,← hknown.resolve_left nofun] at hforeign
        simpa using hforeign
      change ¬(if _ then _ else _) ∧ ¬(if _ then _ else _)
      rw [if_pos hown,if_pos hown]
      by_cases hty : t.columnType idx = .text
      · rw [if_pos hty,if_pos hty]
        exact ⟨hrefused _,hpattern⟩
      · have hop : op ≠ .like := fun h => hty (hlike h).1
        obtain ⟨_,w,⟨⟩,hw,hcode⟩ := (htext s rfl).resolve_left hty
        rw [if_neg hty,if_neg hty,hw]
        refine ⟨fun h => h.elim hop nofun,?_⟩
        rintro ⟨_,⟨⟩,h⟩
        exact not_differ_congr hop hcode h
  | _ =>
    rw [Refused,Misread]
    · simp only [hforeign]
      exact ⟨hinline,fun h => hname h.1⟩
    · simp
    · simp

end Postgres

/-- An integer of the machine is read back from its text. -/
lemma parseI64_toString {i : ℤ} (hlo : -2^63 ≤ i) (hhi : i < 2^63) : parseI64 (toString i).toList = some i := by
  have hhead : ∀ n c, c ∈ (Nat.toDigits 10 n).head? → c.isDigit = true := fun n c hc =>
    Nat.isDigit_of_mem_toDigits (by decide) (by decide) (List.mem_of_mem_head? hc)
  cases i with
  | ofNat n =>
    have htext : (toString (Int.ofNat n)).toList = Nat.toDigits 10 n := Nat.toList_repr
    have hminus : (Nat.toDigits 10 n).head? ≠ some '-' := fun h => absurd (hhead n _ h) (by decide)
    have hn : n < 2^63 := by simpa using hhi
    rw [htext,parseI64,if_neg hminus,parseUnsigned_toDigits hn]
    rfl
  | negSucc n =>
    have htext : (toString (Int.negSucc n)).toList = '-' :: Nat.toDigits 10 (n+1) :=
      String.toList_append.trans (congrArg ("-".toList ++ ·) Nat.toList_repr)
    have hplus : (Nat.toDigits 10 (n+1)).head? ≠ some '+' := fun h => absurd (hhead _ _ h) (by decide)
    have hn : n+1 < 2^63+1 := by omega
    rw [htext,parseI64,List.head?_cons,if_pos rfl,List.tail_cons,if_neg hplus,parseUnsigned_toDigits hn]
    rfl

lemma asI64_range {j : Json} {i : ℤ} (h : j.asI64 = some i) : j = .int i ∧ -2^63 ≤ i ∧ i < 2^63 := by
  cases j with
  | int k =>
    rw [Json.asI64] at h
    split at h
    · next hk =>
      obtain rfl := Option.some.inj h
      exact ⟨rfl,hk⟩
    · cases h
  | _ => cases h

section
variable {pg : Postgres} {ft : FloatText} {parseF64 : String → Option OrderedFloat} {ty : ColumnType}

lemma numeralAs_int {i : ℤ} (hlo : -2^63 ≤ i) (hhi : i < 2^63) :
    pg.numeralAs .int (toString i) = some (.int i) := by
  rw [Postgres.numeralAs,parseI64_toString hlo hhi,Option.map_some]

lemma numeralAs_float {s : String} {f : OrderedFloat} (h : pg.Reads s f) :
    ∃ w, pg.numeralAs .float s = some w ∧ w.code = (Value.float f).code := by
  obtain ⟨g,hg,hkey⟩ := h
  exact ⟨.float g,by rw [Postgres.numeralAs,hg,Option.map_some],by rw [Value.code,Value.code,hkey]⟩

lemma literalFromJson_string {s : String} {v : Value} (h : Value.literalFromJson parseF64 (.string s) ty = .ok v) :
    v.HasType ty := by
  refine (literalFromJson_hasType h).resolve_left ?_
  rintro rfl
  cases ty <;> simp only [Value.literalFromJson] at h <;> repeat' (split at h)
  all_goals cases h

/-- A literal of a request as it is written. -/
lemma writtenAs_json (hft : ∀ f : OrderedFloat, f.isFinite = true → Spelled (String.ofList (ft.text f)))
    {l : Literal} (hl : ty = .float → pg.ReadsLiteral ft l) {v : Value}
    (h : Value.literalFromJson parseF64 l.json ty = .ok v) : WrittenAs pg ty v (l.json.sqlLiteral ft) := by
  have hfinite := l.finite
  rw [Postgres.ReadsLiteral] at hl
  cases hj : l.json with
  | null =>
    rw [hj] at h
    obtain rfl := Except.ok.inj h
    exact .null
  | bool b =>
    rw [hj] at h
    cases ty <;> try cases h
    exact .bool b rfl
  | int i =>
    rw [hj] at h hl
    cases ty with
    | int =>
      simp only [Value.literalFromJson,Value.fromJson] at h
      split at h
      · next k hk =>
        obtain ⟨hjson,hlo,hhi⟩ := asI64_range hk
        obtain rfl := Json.int.inj hjson
        obtain rfl := Except.ok.inj h
        exact .numeral (spelled_int i) trivial (by decide) (numeralAs_int hlo hhi) rfl
      · cases h
    | float =>
      obtain rfl := Except.ok.inj h
      obtain ⟨w,hw,hcode⟩ := numeralAs_float (hl rfl)
      exact .numeral (spelled_int i) trivial (by decide) hw hcode
    | text => cases h
    | bool => cases h
  | float f =>
    rw [hj] at h hl hfinite
    cases ty with
    | float =>
      obtain rfl := Except.ok.inj h
      obtain ⟨w,hw,hcode⟩ := numeralAs_float (hl rfl)
      exact .numeral (hft f hfinite) trivial (by decide) hw hcode
    | int => cases h
    | text => cases h
    | bool => cases h
  | string s =>
    rw [hj] at h
    cases ty with
    | text =>
      obtain rfl := Except.ok.inj h
      exact .text s rfl
    | _ => exact .coerced s (literalFromJson_string h) (by decide)
  | array xs =>
    rw [hj] at h
    cases ty <;> cases h
  | object fields =>
    rw [hj] at h
    cases ty <;> cases h

lemma literalFromJson_range {j : Json} {i : ℤ} (h : Value.literalFromJson parseF64 j ty = .ok (.int i)) :
    -2^63 ≤ i ∧ i < 2^63 := by
  cases j with
  | null => cases h
  | string s =>
    cases ty with
    | int =>
      simp only [Value.literalFromJson] at h
      split at h
      · next k hk =>
        obtain rfl := Value.int.inj (Except.ok.inj h)
        exact parseI64_range hk
      · cases h
    | text => cases h
    | float =>
      simp only [Value.literalFromJson] at h
      split at h <;> cases h
    | bool =>
      simp only [Value.literalFromJson] at h
      split at h
      · cases h
      · split at h <;> cases h
  | int k =>
    cases ty with
    | int =>
      simp only [Value.literalFromJson,Value.fromJson] at h
      split at h
      · next k' hk =>
        obtain ⟨-,hk⟩ := asI64_range hk
        obtain rfl := Value.int.inj (Except.ok.inj h)
        exact hk
      · cases h
    | _ => cases h
  | _ => cases ty <;> cases h

/-- A compiled literal as it is written. -/
lemma writtenAs_value (hdouble : ∀ f : OrderedFloat, f.isFinite = true → pg.Reads f.toText f) {v : Value}
    (hv : v = .null ∨ v.HasType ty) (hi : ∀ i, v = .int i → -2^63 ≤ i ∧ i < 2^63) : WrittenAs pg ty v v.sqlLiteral := by
  rcases hv with rfl | hv
  · exact .null
  · cases v with
    | null => cases hv
    | bool b =>
      cases ty <;> try cases hv
      exact .bool b rfl
    | text s =>
      cases ty <;> try cases hv
      exact .text s rfl
    | int i =>
      cases ty <;> try cases hv
      exact .numeral (spelled_int i) trivial (by decide) (numeralAs_int (hi i rfl).1 (hi i rfl).2) rfl
    | float f =>
      cases ty <;> try cases hv
      cases hf : f.isFinite with
      | true =>
        obtain ⟨w,hw,hcode⟩ := numeralAs_float (hdouble f hf)
        exact .numeral (spelled_double hf) trivial (by decide) hw hcode
      | false =>
        obtain ⟨s,-,hs⟩ := infinite_text hf
        exact .named ⟨s,hs⟩ trivial (by decide)

end
end ElectricCircuits
