import ElectricCircuits.JsonText
import ElectricCircuits.PgOutput

/-! The envelope of a change: the tuples of the message as JSON objects, the row that is read back from them,
and the key that names it. -/
namespace ElectricCircuits
open PgOutput (Cell Tuple OldTuple Message)

namespace TableSchema

/-- `index.get`. -/
def index (ts : TableSchema) (name : String) : Option ℕ := (ts.columns.map (·.1)).idxOf? name

def columnName (ts : TableSchema) (i : ℕ) : String := (ts.columns.getD i ("",.text)).1

end TableSchema

variable (parseF64 : String → Option OrderedFloat) (ft : FloatText)

/-- The JSON of a cell's text; a text that is not one of its type becomes NULL. -/
def textToJson (text : String) : ColumnType → Json
  | .int =>
    match parseI64 text.toList with
    | some i => .int i
    | none => .null
  | .float =>
    match parseF64 text with
    | some f => .ofFloat f
    | none => .null
  | .bool => if text ∈ ["t","true"] then .bool true else if text ∈ ["f","false"] then .bool false else .null
  | .text => .string text

/-- What a cell becomes in a column; an unchanged one becomes nothing. -/
def cellToJson (ty : ColumnType) : Cell → Option Json
  | .unchangedToast => none
  | .null => some .null
  | .text text => some (textToJson parseF64 text ty)

/-- Put a cell into the object; a column that the schema does not have is skipped. -/
def putCell (ts : TableSchema) (out : AssocMap String Json) (e : Cell × String) : AssocMap String Json :=
  match ts.index e.2 with
  | none => out
  | some idx =>
    match cellToJson parseF64 (ts.columns.getD idx ("",.text)).2 e.1 with
    | none => out
    | some j => out.insert e.2 j

/-- A tuple as an object. -/
def tupleToMap (tuple : Tuple) (columns : List String) (ts : TableSchema) : AssocMap String Json :=
  (tuple.zip columns).foldl (putCell parseF64 ts) .empty

/-- What `or_insert_with` adds from the old object. -/
def fillFrom (new old : AssocMap String Json) : AssocMap String Json :=
  old.entries.foldl (fun new (k,v) => new.modify k v id) new

/-- One component of a key; a number in a float column is written as the engine writes it. -/
def keyComponent (obj : Json) (ts : TableSchema) (name : String) : String :=
  let isFloat := (ts.index name).any fun i => (ts.columns.getD i ("",.text)).2 == .float
  match obj.get? name with
  | none | some .null => "null"
  | some (.string s) => s
  | some (.int i) => if isFloat then (OrderedFloat.ofInt i).toText else toString i
  | some (.float f) => if isFloat then f.toText else String.ofList (ft.text f)
  | some (.bool b) => toString b
  | some v => String.ofList (v.chars ft)

def keyFromObj (obj : Json) (ts : TableSchema) : String :=
  match ts.pkCols with
  | [i] => keyComponent ft obj ts (ts.columnName i)
  | cols => joinKeyComponents (cols.map fun i => keyComponent ft obj ts (ts.columnName i))

def makeEnvelope (table : String) (ts : TableSchema) (operation : String) (value old : Option Json)
    (keySrc : Json) : Envelope :=
  ⟨table,keyFromObj ft keySrc ts,value,old,⟨operation,none,none,none,none⟩⟩

/-- The envelope of a change, before the stamps of its commit. -/
def buildEnvelope (table : String) (ts : TableSchema) (columns : List String) : Message → Option Envelope
  | .insert _ new =>
    let new := Json.object (tupleToMap parseF64 new columns ts).entries
    some (makeEnvelope ft table ts "insert" (some new) none new)
  | .update _ old new =>
    let oldMap :=
      match old with
      | some (.full t) => some (tupleToMap parseF64 t columns ts)
      | _ => none
    let newMap := tupleToMap parseF64 new columns ts
    let newMap :=
      match oldMap with
      | some om => fillFrom newMap om
      | none => newMap
    let new := Json.object newMap.entries
    some (makeEnvelope ft table ts "update" (some new) (oldMap.map fun om => .object om.entries) new)
  | .delete _ (.full t) =>
    let old := Json.object (tupleToMap parseF64 t columns ts).entries
    some (makeEnvelope ft table ts "delete" none (some old) old)
  | _ => none

/-- A cell of the message is the text of a value. -/
def Spells : ColumnType → Cell → Value → Prop
  | _,.null,.null => True
  | .int,.text s,.int i => parseI64 s.toList = some i
  | .float,.text s,.float f => parseF64 s = some f
  | .bool,.text s,.bool b => s ∈ if b then ["t","true"] else ["f","false"]
  | .text,.text s,.text t => s = t
  | _,_,_ => False

/-- The relation has the columns of the table, each once. -/
structure HasColumns (ts : TableSchema) (columns : List String) : Prop where
  nodup : columns.Nodup
  all : ∀ c ∈ ts.columns, c.1 ∈ columns

/-- A tuple spells a row; a cell that is left out is the one of the row before. -/
structure Image (ts : TableSchema) (columns : List String) (base : Option Row) (tuple : Tuple) (r : Row) :
    Prop where
  length : tuple.length = columns.length
  width : r.cells.length = ts.columns.length
  cell : ∀ c name i col, (c,name) ∈ tuple.zip columns → ts.columns[i]? = some col → col.1 = name →
    Spells parseF64 col.2 c (r.cell i) ∨ c = .unchangedToast ∧ ∃ b ∈ base, b.cell i = r.cell i

/-- The numbers of a row are numbers of JSON. -/
def FiniteRow (r : Row) : Prop := ∀ f, .float f ∈ r.cells → f.isFinite = true

variable {parseF64 ft} {ts : TableSchema} {columns : List String}

lemma TableSchema.index_eq {i : ℕ} {col : String × ColumnType} (h : ts.columns[i]? = some col) :
    ts.index col.1 = some i := by
  have hname : (ts.columns.map (·.1))[i]? = some col.1 := by rw [List.getElem?_map,h]; rfl
  obtain ⟨hlt,hget⟩ := List.getElem?_eq_some_iff.mp hname
  rw [index,List.idxOf?_eq_some_iff]
  refine ⟨hlt,hget,fun j hj => ?_⟩
  intro heq
  have hji := (List.Nodup.getElem_inj_iff ts.names_nodup).mp (heq.trans hget.symm)
  omega

lemma getD_columns {i : ℕ} {col : String × ColumnType} (h : ts.columns[i]? = some col) :
    ts.columns.getD i ("",.text) = col := by
  rw [List.getD_eq_getElem?_getD,h,Option.getD_some]

/-- Cells of other columns leave a column as it is. -/
lemma get?_foldl_putCell_of_notMem {es : List (Cell × String)} {name : String} (h : name ∉ es.map (·.2)) :
    ∀ out, (es.foldl (putCell parseF64 ts) out).get? name = out.get? name := by
  induction es with
  | nil => exact fun out => rfl
  | cons e es ih =>
    intro out
    rw [List.map_cons,List.mem_cons,not_or] at h
    rw [List.foldl_cons,ih h.2,putCell]
    split
    · rfl
    · split
      · rfl
      · rw [AssocMap.get?_insert_eq,if_neg (Ne.symm h.1)]

lemma get?_foldl_putCell {es : List (Cell × String)} (hnodup : (es.map (·.2)).Nodup) {c : Cell} {i : ℕ}
    {col : String × ColumnType} (hcol : ts.columns[i]? = some col) (hmem : (c,col.1) ∈ es) :
    ∀ out, (es.foldl (putCell parseF64 ts) out).get? col.1 =
      (cellToJson parseF64 col.2 c).or (out.get? col.1) := by
  induction es with
  | nil => cases hmem
  | cons e es ih =>
    intro out
    obtain ⟨hnot,hnodup⟩ := List.nodup_cons.mp hnodup
    rcases List.mem_cons.mp hmem with rfl | hmem
    · rw [List.foldl_cons,get?_foldl_putCell_of_notMem hnot,putCell,TableSchema.index_eq hcol]
      simp only [getD_columns hcol]
      cases cellToJson parseF64 col.2 c with
      | none => rfl
      | some j => exact AssocMap.get?_insert_self _ _ _
    · have hne : e.2 ≠ col.1 := by
        intro heq
        refine hnot ?_
        change e.2 ∈ es.map (·.2)
        rw [heq]
        exact List.mem_map.mpr ⟨_,hmem,rfl⟩
      rw [List.foldl_cons,ih hnodup hmem]
      have hout : (putCell parseF64 ts out e).get? col.1 = out.get? col.1 := by
        rw [putCell]
        split
        · rfl
        · split
          · rfl
          · rw [AssocMap.get?_insert_eq,if_neg hne]
      rw [hout]

lemma get?_tupleToMap (hnodup : columns.Nodup) {tuple : Tuple} (hlen : tuple.length = columns.length) {c : Cell}
    {i : ℕ} {col : String × ColumnType} (hcol : ts.columns[i]? = some col) (hmem : (c,col.1) ∈ tuple.zip columns) :
    (tupleToMap parseF64 tuple columns ts).get? col.1 = cellToJson parseF64 col.2 c := by
  have hnames : ((tuple.zip columns).map (·.2)).Nodup := by
    rwa [List.map_snd_zip (le_of_eq hlen.symm)]
  rw [tupleToMap,get?_foldl_putCell hnames hcol hmem,AssocMap.get?_empty,Option.or_none]

lemma get?_fillFrom (new old : AssocMap String Json) (name : String) :
    (fillFrom new old).get? name = (new.get? name).or (old.get? name) := by
  have hfold : ∀ (es : List (String × Json)), (es.map (·.1)).Nodup → ∀ new : AssocMap String Json,
      (es.foldl (fun new (k,v) => new.modify k v id) new).get? name =
        (new.get? name).or ((es.find? (·.1 == name)).map (·.2)) := by
    intro es
    induction es with
    | nil => exact fun _ new => by simp
    | cons e es ih =>
      intro hnodup new
      obtain ⟨hnot,hnodup⟩ := List.nodup_cons.mp hnodup
      rw [List.foldl_cons,ih hnodup,AssocMap.get?_modify,List.find?_cons]
      by_cases hname : e.1 = name
      · subst hname
        simp only [BEq.rfl,if_true,id_eq]
        cases new.get? e.1 <;> simp
      · have hbeq : (e.1 == name) = false := by simpa using hname
        simp only [hbeq,Bool.false_eq_true,if_false]
  exact hfold old.entries old.nodup_keys new

/-- The JSON of a cell without a detour over strings. -/
def Value.plain : Value → Json
  | null => .null
  | int i => .int i
  | text s => .string s
  | bool b => .bool b
  | float f => .float f

/-- A value that a column can hold. -/
structure Value.Fits (v : Value) (ty : ColumnType) : Prop where
  typed : v = null ∨ v.HasType ty
  range : ∀ i, v = int i → -2^63 ≤ i ∧ i < 2^63

lemma Value.fits_null (ty : ColumnType) : Value.null.Fits ty := ⟨.inl rfl,by simp⟩

lemma parseUnsigned_lt {radix max n : ℕ} {s : List Char} (h : parseUnsigned radix max s = some n) : n < max := by
  simp only [parseUnsigned] at h
  generalize (if s.head? = some '+' then s.tail else s) = digits at h
  split at h
  · cases h
  · obtain ⟨ds,-,h⟩ := Option.bind_eq_some_iff.mp h
    split at h
    · next hlt =>
      obtain rfl := Option.some.inj h
      exact hlt
    · cases h

lemma parseI64_range {s : List Char} {i : ℤ} (h : parseI64 s = some i) : -2^63 ≤ i ∧ i < 2^63 := by
  rw [parseI64] at h
  split at h
  · split at h
    · cases h
    · cases hn : parseUnsigned 10 (2^63+1) s.tail with
      | none =>
        rw [hn] at h
        cases h
      | some n =>
        have hlt := parseUnsigned_lt hn
        rw [hn] at h
        obtain rfl : -(n : ℤ) = i := Option.some.inj h
        omega
  · cases hn : parseUnsigned 10 (2^63) s with
    | none =>
      rw [hn] at h
      cases h
    | some n =>
      have hlt := parseUnsigned_lt hn
      rw [hn] at h
      obtain rfl : (n : ℤ) = i := Option.some.inj h
      omega

/-- A value is read back from its JSON. -/
lemma Value.fromJson_plain {v : Value} {ty : ColumnType} (h : v.Fits ty) : Value.fromJson v.plain ty = .ok v := by
  obtain ⟨rfl | ht,hr⟩ := h
  · rfl
  · cases v <;> cases ty <;> try cases ht
    · rename_i i
      simp only [plain,fromJson,Json.asI64,if_pos (hr i rfl)]
    all_goals rfl

/-- A text of another type, or a number that JSON does not have, is a NULL. -/
lemma textToJson_plain (text : String) (ty : ColumnType) :
    ∃ v : Value, textToJson parseF64 text ty = v.plain ∧ v.Fits ty := by
  cases ty with
  | int =>
    rw [textToJson]
    split
    · next i hi => exact ⟨.int i,rfl,.inr trivial,fun _ h => Value.int.inj h ▸ parseI64_range hi⟩
    · exact ⟨.null,rfl,Value.fits_null _⟩
  | float =>
    rw [textToJson]
    split
    · next f hf =>
      rw [Json.ofFloat]
      split
      · exact ⟨.float f,rfl,.inr trivial,by simp⟩
      · exact ⟨.null,rfl,Value.fits_null _⟩
    · exact ⟨.null,rfl,Value.fits_null _⟩
  | bool =>
    rw [textToJson]
    split
    · exact ⟨.bool true,rfl,.inr trivial,by simp⟩
    · split
      · exact ⟨.bool false,rfl,.inr trivial,by simp⟩
      · exact ⟨.null,rfl,Value.fits_null _⟩
  | text => exact ⟨.text text,rfl,.inr trivial,by simp⟩

lemma cellToJson_of_spells {ty : ColumnType} {c : Cell} {v : Value} (h : Spells parseF64 ty c v)
    (hf : ∀ f, v = .float f → f.isFinite = true) : cellToJson parseF64 ty c = some v.plain ∧ v.Fits ty := by
  cases c with
  | unchangedToast => cases ty <;> cases v <;> cases h
  | null =>
    cases v with
    | null => exact ⟨rfl,Value.fits_null ty⟩
    | _ => cases ty <;> cases h
  | text s =>
    cases ty <;> cases v <;> try cases h
    · rename_i i
      change parseI64 s.toList = some i at h
      refine ⟨?_,.inr trivial,fun _ hi => Value.int.inj hi ▸ parseI64_range h⟩
      simp only [cellToJson,textToJson,h,Value.plain]
    · exact ⟨rfl,.inr trivial,by simp⟩
    · rename_i b
      refine ⟨?_,.inr trivial,by simp⟩
      cases b with
      | true =>
        change s ∈ ["t","true"] at h
        simp only [cellToJson,textToJson,if_pos h,Value.plain]
      | false =>
        change s ∈ ["f","false"] at h
        have hnot : s ∉ ["t","true"] := by
          rcases List.mem_cons.mp h with rfl | h
          · decide
          · obtain rfl := List.mem_singleton.mp h
            decide
        simp only [cellToJson,textToJson,if_neg hnot,if_pos h,Value.plain]
    · rename_i f
      change parseF64 s = some f at h
      refine ⟨?_,.inr trivial,by simp⟩
      simp only [cellToJson,textToJson,h,Json.ofFloat,if_pos (hf f rfl),Value.plain]

/-- The object has the row's cells in the columns of the table; a NULL may be left out. -/
structure ObjectHolds (ts : TableSchema) (obj : Json) (r : Row) : Prop where
  width : r.cells.length = ts.columns.length
  cell : ∀ i col, ts.columns[i]? = some col →
    (obj.get? col.1).getD .null = (r.cell i).plain ∧ (r.cell i).Fits col.2

namespace ObjectHolds
variable {obj : Json} {r : Row}

/-- The row is read back from the object. -/
theorem rowFromJson (h : ObjectHolds ts obj r) : ts.rowFromJson obj = .ok r := by
  have hcells : (ts.columns.mapM fun c => Value.fromJson ((obj.get? c.1).getD .null) c.2) = .ok r.cells := by
    refine TableSchema.mapM_of_forall₂ (List.forall₂_iff_get.mpr ⟨h.width.symm,fun i hi hi' => ?_⟩)
    obtain ⟨hobj,hfits⟩ := h.cell i _ (List.getElem?_eq_getElem hi)
    have hcell : r.cell i = r.cells.get ⟨i,hi'⟩ := by
      rw [Row.cell,List.getD_eq_getElem?_getD,List.getElem?_eq_getElem hi']
      rfl
    rw [← hcell]
    exact hobj ▸ Value.fromJson_plain hfits
  rw [TableSchema.rowFromJson,hcells]
  rfl

/-- The two sides write the same component. -/
lemma keyComponent_eq (h : ObjectHolds ts obj r) {i : ℕ} (hi : i < ts.columns.length) :
    keyComponent ft obj ts (ts.columnName i) = (r.cell i).toKeyString := by
  have hcol := List.getElem?_eq_getElem hi
  obtain ⟨hobj,hfits⟩ := h.cell i _ hcol
  have hname : ts.columnName i = ts.columns[i].1 := by rw [TableSchema.columnName,getD_columns hcol]
  rw [keyComponent,hname,TableSchema.index_eq hcol,Option.any_some,getD_columns hcol]
  cases hget : obj.get? ts.columns[i].1 with
  | none =>
    rw [hget] at hobj
    cases hv : r.cell i with
    | null => rfl
    | _ =>
      rw [hv] at hobj
      cases hobj
  | some j =>
    obtain rfl : j = (r.cell i).plain := by rw [← hobj,hget,Option.getD_some]
    cases hv : r.cell i <;> rw [hv] at hfits <;> cases hty : ts.columns[i].2 <;> rw [hty] at hfits <;> first
    | rfl
    | cases hfits.typed.resolve_left (by simp)

/-- The key of the object is the key of the row. -/
theorem keyFromObj_eq (h : ObjectHolds ts obj r) : ts.keyString r = .ok (keyFromObj ft obj ts) := by
  have hcols : ∀ i ∈ ts.pkCols, keyComponent ft obj ts (ts.columnName i) = (r.cell i).toKeyString :=
    fun i hi => h.keyComponent_eq (ts.pk_lt i hi)
  rw [TableSchema.keyString_of_width h.width,TableSchema.name,keyFromObj]
  rcases hpk : ts.pkCols with _ | ⟨i,_ | ⟨j,cols⟩⟩
  · exact absurd hpk ts.pk_ne_nil
  · simp only [hcols i (by simp [hpk])]
  · rw [hpk] at hcols
    simp only [List.map_congr_left hcols]

end ObjectHolds

/-- A column's cell of the message. -/
lemma HasColumns.exists_cell (h : HasColumns ts columns) {tuple : Tuple} (hlen : tuple.length = columns.length)
    {col : String × ColumnType} (hcol : col ∈ ts.columns) : ∃ c, (c,col.1) ∈ tuple.zip columns := by
  obtain ⟨k,hk,hname⟩ := List.mem_iff_getElem.mp (h.all col hcol)
  have hk' : k < tuple.length := hlen ▸ hk
  refine ⟨tuple[k],List.mem_iff_getElem.mpr ⟨k,?_,?_⟩⟩
  · rw [List.length_zip,hlen,Nat.min_self]
    exact hk
  · rw [List.getElem_zip,hname]

lemma FiniteRow.cell {r : Row} (h : FiniteRow r) {i : ℕ} : ∀ f, r.cell i = .float f → f.isFinite = true := by
  intro f hf
  refine h f ?_
  rw [Row.cell,List.getD_eq_getElem?_getD] at hf
  cases hget : r.cells[i]? with
  | none =>
    rw [hget] at hf
    cases hf
  | some v =>
    rw [hget] at hf
    exact hf ▸ List.mem_of_getElem? hget

namespace Image
variable {base : Option Row} {tuple : Tuple} {r : Row}

/-- The object of a tuple has the cells that the tuple spells. -/
lemma get? (h : Image parseF64 ts columns base tuple r) (hcols : HasColumns ts columns) (hfinite : FiniteRow r)
    {i : ℕ} {col : String × ColumnType} (hcol : ts.columns[i]? = some col) :
    (tupleToMap parseF64 tuple columns ts).get? col.1 = some (r.cell i).plain ∧ (r.cell i).Fits col.2 ∨
      (tupleToMap parseF64 tuple columns ts).get? col.1 = none ∧ ∃ b ∈ base, b.cell i = r.cell i := by
  obtain ⟨c,hmem⟩ := hcols.exists_cell h.length (List.mem_of_getElem? hcol)
  rw [get?_tupleToMap hcols.nodup h.length hcol hmem]
  rcases h.cell c col.1 i col hmem hcol rfl with hspells | ⟨rfl,hbase⟩
  · exact .inl (cellToJson_of_spells hspells hfinite.cell)
  · exact .inr ⟨rfl,hbase⟩

/-- A whole tuple is an object that holds its row. -/
theorem holds (h : Image parseF64 ts columns none tuple r) (hcols : HasColumns ts columns)
    (hfinite : FiniteRow r) : ObjectHolds ts (.object (tupleToMap parseF64 tuple columns ts).entries) r := by
  refine ⟨h.width,fun i col hcol => ?_⟩
  rcases h.get? hcols hfinite hcol with ⟨hget,hfits⟩ | ⟨-,b,hb,-⟩
  · exact ⟨congrArg (·.getD .null) hget,hfits⟩
  · cases hb

/-- What a tuple leaves out is filled from the row before. -/
theorem holds_fillFrom {old : AssocMap String Json} {r₀ : Row} (h : Image parseF64 ts columns (some r₀) tuple r)
    (hcols : HasColumns ts columns) (hfinite : FiniteRow r) (hold : ObjectHolds ts (.object old.entries) r₀) :
    ObjectHolds ts (.object (fillFrom (tupleToMap parseF64 tuple columns ts) old).entries) r := by
  refine ⟨h.width,fun i col hcol => ?_⟩
  change ((fillFrom (tupleToMap parseF64 tuple columns ts) old).get? col.1).getD .null = _ ∧ _
  rw [get?_fillFrom]
  rcases h.get? hcols hfinite hcol with ⟨hget,hfits⟩ | ⟨hget,b,hb,hcell⟩
  · rw [hget]
    exact ⟨rfl,hfits⟩
  · obtain rfl := Option.some.inj hb
    rw [hget,Option.none_or,← hcell]
    exact hold.cell i col hcol

end Image

/-- Every number, text and truth value of the object is one that its column can hold. -/
def Plain (ts : TableSchema) (m : AssocMap String Json) : Prop :=
  ∀ (i : ℕ) (col : String × ColumnType) j, ts.columns[i]? = some col → m.get? col.1 = some j →
    ∃ v : Value, j = v.plain ∧ v.Fits col.2

lemma plain_putCell {out : AssocMap String Json} (h : Plain ts out) (e : Cell × String) :
    Plain ts (putCell parseF64 ts out e) := by
  rw [putCell]
  split
  · exact h
  · next idx hidx =>
    split
    · exact h
    · next j hj =>
      intro i col k hcol hk
      rw [AssocMap.get?_insert_eq] at hk
      split at hk
      · next heq =>
        obtain rfl := Option.some.inj hk
        rw [heq,TableSchema.index_eq hcol] at hidx
        obtain rfl := Option.some.inj hidx
        rw [getD_columns hcol] at hj
        cases hc : e.1 with
        | unchangedToast =>
          rw [hc] at hj
          cases hj
        | null =>
          rw [hc] at hj
          exact ⟨.null,(Option.some.inj hj).symm,Value.fits_null _⟩
        | text s =>
          rw [hc] at hj
          obtain rfl := Option.some.inj hj
          exact textToJson_plain s col.2
      · exact h i col k hcol hk

lemma plain_tupleToMap (tuple : Tuple) : Plain ts (tupleToMap parseF64 tuple columns ts) := by
  have hfold : ∀ (es : List (Cell × String)) out, Plain ts out →
      Plain ts (es.foldl (putCell parseF64 ts) out) := by
    intro es
    induction es with
    | nil => exact fun out h => h
    | cons e es ih => exact fun out h => ih _ (plain_putCell h e)
  refine hfold _ _ fun i col j _ hj => ?_
  rw [AssocMap.get?_empty] at hj
  cases hj

lemma plain_fillFrom {new old : AssocMap String Json} (hnew : Plain ts new) (hold : Plain ts old) :
    Plain ts (fillFrom new old) := by
  intro i col j hcol hj
  rw [get?_fillFrom] at hj
  rcases Option.or_eq_some_iff.mp hj with hj | ⟨-,hj⟩
  · exact hnew i col j hcol hj
  · exact hold i col j hcol hj

/-- There is a row in every such object. -/
lemma Plain.holds {m : AssocMap String Json} (h : Plain ts m) : ∃ r, ObjectHolds ts (.object m.entries) r := by
  have hcell : ∀ i : ℕ, ∃ v : Value, ∀ col : String × ColumnType, ts.columns[i]? = some col →
      (m.get? col.1).getD .null = v.plain ∧ v.Fits col.2 := by
    intro i
    cases hcol : ts.columns[i]? with
    | none =>
      refine ⟨.null,?_⟩
      rintro _ ⟨⟩
    | some col =>
      cases hget : m.get? col.1 with
      | none =>
        refine ⟨.null,?_⟩
        rintro _ ⟨⟩
        rw [hget]
        exact ⟨rfl,Value.fits_null _⟩
      | some j =>
        obtain ⟨v,rfl,hfits⟩ := h i col j hcol hget
        refine ⟨v,?_⟩
        rintro _ ⟨⟩
        rw [hget]
        exact ⟨rfl,hfits⟩
  choose cells hcells using hcell
  refine ⟨⟨(List.range ts.columns.length).map cells⟩,by simp,fun i col hcol => ?_⟩
  obtain ⟨hlt,-⟩ := List.getElem?_eq_some_iff.mp hcol
  have hget : Row.cell ⟨(List.range ts.columns.length).map cells⟩ i = cells i := by
    simp [Row.cell,hlt]
  rw [hget]
  exact hcells i col hcol

/-- Within a type and among the numbers of JSON the key string of a cell is the cell. -/
lemma Value.eq_of_toKeyString {v w : Value} {ty : ColumnType} (hv : v.HasType ty) (hw : w.HasType ty)
    (hfv : ∀ f, v = .float f → f.isFinite = true) (hfw : ∀ f, w = .float f → f.isFinite = true)
    (h : v.toKeyString = w.toKeyString) : v = w := by
  cases v <;> cases ty <;> try cases hv
  all_goals
    cases w <;> try cases hw
  · exact congrArg Value.int (intToString_inj h)
  · exact congrArg Value.text h
  · rename_i a b
    cases a <;> cases b <;> first | rfl | exact absurd h (by decide)
  · rename_i f g
    obtain ⟨hs,hm⟩ := OrderedFloat.parts_of_toText (OrderedFloat.isNan_of_isFinite (hfv f rfl))
      (OrderedFloat.isNan_of_isFinite (hfw g rfl)) h
    exact congrArg Value.float (OrderedFloat.ext_of_parts hs hm)

/-- Rows have one key exactly when they have one primary key. -/
theorem TableSchema.name_eq_iff {r r' : Row} (h : ts.IsRow r) (h' : ts.IsRow r') (hf : FiniteRow r)
    (hf' : FiniteRow r') : ts.name r = ts.name r' ↔ ∀ i ∈ ts.pkCols, r.cell i = r'.cell i := by
  constructor
  · intro hname i hi
    have hc := List.getElem?_eq_getElem (ts.pk_lt i hi)
    exact Value.eq_of_toKeyString (h.pk i hi _ hc) (h'.pk i hi _ hc) hf.cell hf'.cell
      (texts_of_name hname i hi)
  · intro hcells
    have htexts : ∀ i ∈ ts.pkCols, (r.cell i).toKeyString = (r'.cell i).toKeyString :=
      fun i hi => congrArg Value.toKeyString (hcells i hi)
    rw [name,name]
    rcases hpk : ts.pkCols with _ | ⟨i,_ | ⟨j,cols⟩⟩
    · rfl
    · exact htexts i (by simp [hpk])
    · rw [hpk] at htexts
      simp only [List.map_congr_left htexts]

/-- The two zeros of a float column, which are equal and have two texts. -/
def Value.OppositeZeros : Value → Value → Prop
  | .float f,.float g => f.isNegative ≠ g.isNegative ∧ f.magnitude = 0 ∧ g.magnitude = 0
  | _,_ => False

/-- Two finite cells that are equal are one cell, the two zeros apart. -/
lemma Value.eq_of_eqv {v w : Value} (hfv : ∀ f, v = .float f → f.isFinite = true)
    (hfw : ∀ f, w = .float f → f.isFinite = true) (h : v.eqv w = true) (hzeros : ¬v.OppositeZeros w) : v = w := by
  cases v <;> cases w <;> try cases h
  · rfl
  · exact congrArg Value.int (eq_of_beq h)
  · exact congrArg Value.text (eq_of_beq h)
  · exact congrArg Value.bool (eq_of_beq h)
  · rename_i f g
    have hkey : f.key = g.key := eq_of_beq h
    rw [OrderedFloat.key,OrderedFloat.key,OrderedFloat.isNan_of_isFinite (hfv f rfl),
      OrderedFloat.isNan_of_isFinite (hfw g rfl),if_neg Bool.false_ne_true,if_neg Bool.false_ne_true] at hkey
    refine congrArg Value.float (OrderedFloat.ext_of_parts ?_ ?_)
    · by_contra hsign
      refine hzeros ⟨hsign,?_⟩
      cases hf : f.isNegative <;> cases hg : g.isNegative <;>
        simp only [hf,hg,if_true,Bool.false_eq_true,if_false] at hkey hsign
      · exact absurd trivial hsign
      · omega
      · omega
      · exact absurd trivial hsign
    · cases hf : f.isNegative <;> cases hg : g.isNegative <;>
        simp only [hf,hg,if_true,Bool.false_eq_true,if_false] at hkey <;> omega

/-- Rows of one key are equal in their primary keys, and rows that are so are of one key, opposite zeros apart. -/
theorem TableSchema.keyString_eq_iff {r r' : Row} (h : ts.IsRow r) (h' : ts.IsRow r') (hf : FiniteRow r)
    (hf' : FiniteRow r') (hzeros : ∀ i ∈ ts.pkCols, ¬(r.cell i).OppositeZeros (r'.cell i)) :
    ts.keyString r = ts.keyString r' ↔ ∀ i ∈ ts.pkCols, (r.cell i).eqv (r'.cell i) = true := by
  have hname : ts.keyString r = ts.keyString r' ↔ ts.name r = ts.name r' := by
    rw [keyString_eq h,keyString_eq h']
    exact ⟨Except.ok.inj,congrArg _⟩
  rw [hname,name_eq_iff h h' hf hf']
  refine forall₂_congr fun i hi => ⟨?_,fun heqv => Value.eq_of_eqv hf.cell hf'.cell heqv (hzeros i hi)⟩
  intro heq
  rw [heq]
  exact Value.eqv_refl _

/-- The envelope carries the rows, and the key of one of them. -/
structure Envelope.Carries (ts : TableSchema) (e : Envelope) (value old : Option Row) (named : Row) : Prop where
  value : e.value.mapM ts.rowFromJson = .ok value
  old : e.old.mapM ts.rowFromJson = .ok old
  key : ts.keyString named = .ok e.key

/-- The rows of a message come back from its envelope, and the ingestor's key is the engine's; keys are equal
exactly when primary keys are. -/
theorem buildEnvelope_carries (parseF64 : String → Option OrderedFloat) (ft : FloatText) (table : String)
    (ts : TableSchema) (columns : List String) (hcols : HasColumns ts columns) :
    (∀ rel new r, Image parseF64 ts columns none new r → FiniteRow r →
      ∃ e, buildEnvelope parseF64 ft table ts columns (.insert rel new) = some e ∧
        e.Carries ts (some r) none r) ∧
    (∀ rel old new r₀ r, Image parseF64 ts columns none old r₀ → FiniteRow r₀ →
      Image parseF64 ts columns (some r₀) new r → FiniteRow r →
      ∃ e, buildEnvelope parseF64 ft table ts columns (.update rel (some (.full old)) new) = some e ∧
        e.Carries ts (some r) (some r₀) r) ∧
    (∀ rel old r₀, Image parseF64 ts columns none old r₀ → FiniteRow r₀ →
      ∃ e, buildEnvelope parseF64 ft table ts columns (.delete rel (.full old)) = some e ∧
        e.Carries ts none (some r₀) r₀) ∧
    (∀ m e, buildEnvelope parseF64 ft table ts columns m = some e →
      ∃ r, (e.value.or e.old).map ts.rowFromJson = some (.ok r) ∧ ts.keyString r = .ok e.key) ∧
    (∀ r r', ts.IsRow r → ts.IsRow r' → FiniteRow r → FiniteRow r' →
      (ts.keyString r = ts.keyString r' → ∀ i ∈ ts.pkCols, (r.cell i).eqv (r'.cell i) = true) ∧
      ((∀ i ∈ ts.pkCols, ¬(r.cell i).OppositeZeros (r'.cell i)) →
        (ts.keyString r = ts.keyString r' ↔ ∀ i ∈ ts.pkCols, (r.cell i).eqv (r'.cell i) = true))) := by
  refine ⟨?_,?_,?_,?_,?_⟩
  · intro rel new r hnew hf
    have hholds := hnew.holds hcols hf
    refine ⟨_,rfl,?_,rfl,hholds.keyFromObj_eq⟩
    simp only [makeEnvelope,Option.mapM_some,hholds.rowFromJson]
    rfl
  · intro rel old new r₀ r hold hf₀ hnew hf
    have hholds₀ := hold.holds hcols hf₀
    have hholds := hnew.holds_fillFrom hcols hf hholds₀
    refine ⟨_,rfl,?_,?_,hholds.keyFromObj_eq⟩
    · simp only [makeEnvelope,Option.mapM_some,hholds.rowFromJson]
      rfl
    · simp only [makeEnvelope,Option.map_some,Option.mapM_some,hholds₀.rowFromJson]
      rfl
  · intro rel old r₀ hold hf
    have hholds := hold.holds hcols hf
    refine ⟨_,rfl,rfl,?_,hholds.keyFromObj_eq⟩
    simp only [makeEnvelope,Option.mapM_some,hholds.rowFromJson]
    rfl
  · intro m e he
    have hread : ∀ m : AssocMap String Json, Plain ts m → ∃ r, ts.rowFromJson (.object m.entries) = .ok r ∧
        ts.keyString r = .ok (keyFromObj ft (.object m.entries) ts) := by
      intro m hm
      obtain ⟨r,hr⟩ := hm.holds
      exact ⟨r,hr.rowFromJson,hr.keyFromObj_eq⟩
    cases m with
    | insert rel new =>
      obtain rfl := Option.some.inj he
      obtain ⟨r,hrow,hkey⟩ := hread _ (plain_tupleToMap new)
      exact ⟨r,congrArg some hrow,hkey⟩
    | update rel old new =>
      obtain rfl := Option.some.inj he
      have hnew : Plain ts (tupleToMap parseF64 new columns ts) := plain_tupleToMap new
      rcases old with _ | t | t
      · obtain ⟨r,hrow,hkey⟩ := hread _ hnew
        exact ⟨r,congrArg some hrow,hkey⟩
      · obtain ⟨r,hrow,hkey⟩ := hread _ (plain_fillFrom hnew (plain_tupleToMap t))
        exact ⟨r,congrArg some hrow,hkey⟩
      · obtain ⟨r,hrow,hkey⟩ := hread _ hnew
        exact ⟨r,congrArg some hrow,hkey⟩
    | delete rel old =>
      cases old with
      | full t =>
        obtain rfl := Option.some.inj he
        obtain ⟨r,hrow,hkey⟩ := hread _ (plain_tupleToMap t)
        exact ⟨r,congrArg some hrow,hkey⟩
      | key t => cases he
    | _ => cases he
  · intro r r' h h' hf hf'
    refine ⟨fun hkey i hi => ?_,TableSchema.keyString_eq_iff h h' hf hf'⟩
    rw [TableSchema.keyString_eq h,TableSchema.keyString_eq h'] at hkey
    rw [(TableSchema.name_eq_iff h h' hf hf').mp (Except.ok.inj hkey) i hi]
    exact Value.eqv_refl _

/-- A composite key of a text and a number. -/
def TableSchema.priced : TableSchema where
  table := "prices"
  columns := [("item",.text),("price",.float)]
  pkCols := [0,1]
  names_nodup := by decide
  pk_ne_nil := by decide
  pk_lt := by decide

def samplePrice (s : String) : Option OrderedFloat :=
  if s = "1.5" then some ⟨0x3FF8000000000000⟩ else if s = "NaN" then some ⟨0x7FF8000000000000⟩ else none

lemma priced_image {s price : String} {f : OrderedFloat} (h : samplePrice price = some f) :
    Image samplePrice .priced ["item","price"] none [.text s,.text price] ⟨[.text s,.float f]⟩ where
  length := rfl
  width := rfl
  cell c name i col hmem hcol hname := by
    simp only [List.zip_cons_cons,List.zip_nil_right,List.mem_cons,Prod.mk.injEq,List.not_mem_nil,or_false] at hmem
    subst hname
    match i with
    | 0 =>
      obtain rfl : ("item",ColumnType.text) = col := Option.some.inj hcol
      rcases hmem with ⟨rfl,-⟩ | ⟨-,hne⟩
      · exact .inl rfl
      · exact absurd hne (by decide)
    | 1 =>
      obtain rfl : ("price",ColumnType.float) = col := Option.some.inj hcol
      rcases hmem with ⟨-,hne⟩ | ⟨rfl,-⟩
      · exact absurd hne (by decide)
      · exact .inl h
    | _+2 => cases hcol

/-- A component with the separator in it. -/
theorem sample_buildEnvelope_carries :
    ∃ e, buildEnvelope samplePrice .positional "prices" .priced ["item","price"]
        (.insert 7 [.text "a\x1fb",.text "1.5"]) = some e ∧
      e.Carries .priced (some ⟨[.text "a\x1fb",.float ⟨0x3FF8000000000000⟩]⟩) none
        ⟨[.text "a\x1fb",.float ⟨0x3FF8000000000000⟩]⟩ := by
  refine (buildEnvelope_carries samplePrice .positional "prices" .priced ["item","price"]
    ⟨by decide,by decide⟩).1 7 _ _ (priced_image rfl) ?_
  intro f hf
  simp only [List.mem_cons,List.not_mem_nil,or_false,reduceCtorEq,false_or,Value.float.injEq] at hf
  obtain rfl := hf
  decide

/-- A number that JSON does not have comes back as a NULL. -/
theorem sample_nan_degrades :
    ¬∀ rel new r, Image samplePrice .priced ["item","price"] none new r →
      ∃ e, buildEnvelope samplePrice .positional "prices" .priced ["item","price"] (.insert rel new) = some e ∧
        e.Carries .priced (some r) none r := by
  intro h
  obtain ⟨e,he,hcarries⟩ := h 7 [.text "a",.text "NaN"] ⟨[.text "a",.float ⟨0x7FF8000000000000⟩]⟩
    (priced_image rfl)
  obtain rfl := Option.some.inj he
  have hvalue : (some (Json.object [("item",.string "a"),("price",.null)])).mapM TableSchema.priced.rowFromJson =
      .ok (some ⟨[.text "a",.float ⟨0x7FF8000000000000⟩]⟩) := hcarries.value
  have hrow : (some (⟨[.text "a",.null]⟩ : Row)) = some ⟨[.text "a",.float ⟨0x7FF8000000000000⟩]⟩ :=
    Except.ok.inj hvalue
  exact absurd hrow (by decide)

end ElectricCircuits
