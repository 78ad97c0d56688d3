import ElectricCircuits.Client.SubsetOrder
import ElectricCircuits.Lib.Keyset
import ElectricCircuits.SqlText

/-! The pages of a subset as the database answers them: the order and the comparisons that the engine spells for it,
and the client that goes from page to page. -/
namespace ElectricCircuits
open ThreeValued

/-- How the SQL spells a comparison of a column: as it stands, under `COLLATE "C"`, or of its text. -/
inductive Spelling where
  | plain
  | collateC
  | asText
  deriving DecidableEq

namespace PgTable
variable (t : PgTable)

/-- `order_term`. -/
def orderTerm (col : ℕ) : Spelling := if t.isCollatableText col then .collateC else .plain

/-- The comparison of a column with a literal, as `build` spells it. -/
def spelling (col : ℕ) (op : LeafOp) : Value → Spelling
  | .text _ =>
    if (t.pgTypeAt col).isNone then .asText
    else if op.isOrdering && t.isCollatableText col then .collateC
    else .plain
  | _ => .plain

end PgTable

/-- What Postgres makes of the cells of each column, which are of the column's own type there: what a client is sent of
a cell that is not NULL, how two cells are ordered, and how a cell compares with a literal. -/
structure PgCells (γ : Type) where
  sent : ℕ → γ → Value
  order : ℕ → Spelling → γ → γ → Ordering
  against : ℕ → Spelling → γ → Value → Ordering
  sent_ne_null : ∀ col x, sent col x ≠ .null

namespace SubsetDef
variable (d : SubsetDef) {γ : Type} (pg : PgCells γ) (t : PgTable)

/-- A row in the database, and the row that a client is sent for it. -/
structure StoredRow where
  cell : ℕ → Option γ
  row : d.TypedRow
  sent : ∀ i, row.row.cell i = ((cell i).map (pg.sent i)).getD .null

variable {d pg}

/-- A comparison with a literal: unknown on NULL. -/
def pgCmp (r : d.StoredRow pg) (col : ℕ) (op : LeafOp) (value : Value) : Truth :=
  match r.cell col with
  | none => .maybe
  | some x =>
    if value = .null then .maybe
    else Truth.ofBool (op.holds (pg.against col (t.spelling col op value) x value))

mutual

/-- What Postgres makes of a predicate on a row. A cursor has no LIKE and no subquery. -/
def pgTruth (r : d.StoredRow pg) : CompiledPredicate → Truth
  | .matchAll => .yes
  | .cmp _ .like _ => .maybe
  | .cmp col op value => pgCmp t r col op value
  | .isNull col b => Truth.ofBool ((r.cell col).isNone == b)
  | .and ps => Truth.conj (pgTruths r ps)
  | .or ps => Truth.disj (pgTruths r ps)
  | .not p => (pgTruth r p).neg
  | .inSubquery _ _ _ => .maybe

def pgTruths (r : d.StoredRow pg) : List CompiledPredicate → List Truth
  | [] => []
  | p :: ps => pgTruth r p :: pgTruths r ps

end

variable (pg) in
/-- Two cells in ascending order; a NULL comes last. -/
def orderCells (col : ℕ) : Option γ → Option γ → Ordering
  | none,none => .eq
  | none,some _ => .gt
  | some _,none => .lt
  | some x,some y => pg.order col (t.orderTerm col) x y

/-- The ORDER BY of a page. -/
def pageOrder (a b : d.StoredRow pg) : Ordering :=
  match d.orderBy with
  | some (col,desc) =>
    (directed desc (orderCells pg t col (a.cell col) (b.cell col))).then
      (directed desc (orderCells pg t d.pk (a.cell d.pk) (b.cell d.pk)))
  | none => orderCells pg t d.pk (a.cell d.pk) (b.cell d.pk)

/-- A page query: the rows that the WHERE finds, in the order of the page, from an offset to a limit. -/
def Answers (rows : List (d.StoredRow pg)) (filter : d.StoredRow pg → Truth) (limit offset : ℕ)
    (page : List (d.StoredRow pg)) : Prop :=
  ∃ all : List (d.StoredRow pg), all.Perm (rows.filter fun r => filter r = .yes) ∧
    all.Pairwise (fun a b => pageOrder t a b ≠ .gt) ∧ page = (all.drop offset).take limit

/-- The query of `loadMore`: the base filter and the cursor of the last row. -/
def LoadMore (rows : List (d.StoredRow pg)) (base : d.StoredRow pg → Truth) (b : d.StoredRow pg) (pageSize : ℕ)
    (page : List (d.StoredRow pg)) : Prop :=
  Answers t rows (fun r => (base r).min (pgTruth t r (d.cursorPredicate b.row))) pageSize 0 page

/-- The first page, and while none is short the ones that `loadMore` fetches. -/
inductive Pages (rows : List (d.StoredRow pg)) (base : d.StoredRow pg → Truth) (sizes : List ℕ) :
    List (d.StoredRow pg) → Prop
  | ended {page : List (d.StoredRow pg)} (hpage : Answers t rows base d.limit d.offset page)
    (hend : d.limit = 0 ∨ page.length < d.limit) : Pages rows base sizes page
  | loads {page out : List (d.StoredRow pg)} {b : d.StoredRow pg} (hpage : Answers t rows base d.limit d.offset page)
    (hopen : ¬(d.limit = 0 ∨ page.length < d.limit)) (hb : page.getLast? = some b)
    (hmore : Keyset.Loads (LoadMore t rows base) b sizes out) : Pages rows base sizes (page ++ out)

/-- The columns of the order. -/
def orderCols (d : SubsetDef) : List ℕ := (d.orderBy.map (·.1)).toList ++ [d.pk]

variable (d pg)

/-- In a spelling, Postgres orders and compares the cells of a column by the places of what is sent of them: integers
and doubles by their size, false before true, texts by code points. -/
def AgreesIn (col : ℕ) (s : Spelling) : Prop :=
  ∀ x y, (pg.sent col x).OfType (d.types col) → (pg.sent col y).OfType (d.types col) →
    pg.order col s x y = compare (place (pg.sent col x)) (place (pg.sent col y)) ∧
    pg.against col s x (pg.sent col y) = compare (place (pg.sent col x)) (place (pg.sent col y))

/-- A column that is compared by its own type: an integer, a truth value, a double, or a UUID, whose text is in the
order of its bytes. -/
def OwnOrder (col : ℕ) : Prop :=
  match d.types col with
  | .int | .bool => True
  | .float => t.pgTypeAt col = some "float8"
  | .text => t.pgTypeAt col = some "uuid"

/-- A text column that was introspected, and whose collation says which strings are equal by their bytes. -/
def KnownText (col : ℕ) : Prop :=
  d.types col = .text ∧ t.pgTypeAt col ∈ [some "text",some "varchar",some "bpchar",some "name"]

/-- What the documentation of Postgres says of these: their own order; code points under `COLLATE "C"`; and equality
byte by byte under any other collation. -/
structure Documented : Prop where
  own : ∀ col, d.OwnOrder t col → AgreesIn d pg col .plain
  codePoints : ∀ col, d.KnownText t col → AgreesIn d pg col .collateC
  bytes : ∀ col, d.KnownText t col → ∀ x y, (pg.sent col x).OfType .text → (pg.sent col y).OfType .text →
    (pg.against col .plain x (pg.sent col y) = .eq ↔ pg.sent col x = pg.sent col y)

/-- A column of the table, as the client knows it, that the client can compare. -/
def Comparable (col : ℕ) : Prop :=
  (t.columns[col]?).map (·.2) = some (d.types col) ∧ (d.OwnOrder t col ∨ d.KnownText t col)

/-- Postgres orders the cells of a column, and compares them with what a client is sent of one, as the client compares
what it is sent. -/
structure Faithful (col : ℕ) : Prop where
  order : ∀ x y, (pg.sent col x).OfType (d.types col) → (pg.sent col y).OfType (d.types col) →
    pg.order col (t.orderTerm col) x y = d.cmpVal (pg.sent col x) (pg.sent col y) (d.types col)
  strict : ∀ op ∈ [LeafOp.lt,.gt], ∀ x y, (pg.sent col x).OfType (d.types col) →
    (pg.sent col y).OfType (d.types col) → pg.against col (t.spelling col op (pg.sent col y)) x (pg.sent col y) =
      d.cmpVal (pg.sent col x) (pg.sent col y) (d.types col)
  eq : ∀ x y, (pg.sent col x).OfType (d.types col) → (pg.sent col y).OfType (d.types col) →
    (pg.against col (t.spelling col .eq (pg.sent col y)) x (pg.sent col y) = .eq ↔
      d.cmpVal (pg.sent col x) (pg.sent col y) (d.types col) = .eq)

variable {d pg t}

/-- The client finds two texts equal that are. -/
lemma cmpVal_eq_eq {s s' : String} {ty : ColumnType} : d.cmpVal (.text s) (.text s') ty = .eq ↔ s = s' := by
  constructor
  · intro h
    by_contra hne
    have hv : Value.text s ≠ .text s' := fun heq => hne (Value.text.inj heq)
    cases ty <;> simp [cmpVal,hv,text,hne] at h
  · rintro rfl
    simp [cmpVal]

/-- The columns that the client can compare are spelled in such a way. -/
theorem Comparable.faithful {col : ℕ} (h : d.Comparable t col) (hpg : Documented d pg t) : Faithful d pg t col := by
  obtain ⟨htype,hown | htext⟩ := h
  · have hplain : t.isCollatableText col = false := by
      unfold OwnOrder at hown
      rw [PgTable.isCollatableText,htype]
      cases hty : d.types col <;> simp_all
    have hspelling : ∀ op x, (pg.sent col x).OfType (d.types col) → t.spelling col op (pg.sent col x) = .plain := by
      intro op x hx
      unfold OwnOrder at hown
      cases hv : pg.sent col x with
      | text s =>
        rw [hv] at hx
        rw [show d.types col = .text from hx] at hown
        simp [PgTable.spelling,hplain,show t.pgTypeAt col = some "uuid" from hown]
      | _ => rfl
    have hagrees := hpg.own col hown
    constructor
    · intro x y hx hy
      rw [PgTable.orderTerm,hplain,d.cmpVal_eq hx hy]
      exact (hagrees x y hx hy).1
    · intro op _ x y hx hy
      rw [hspelling op y hy,d.cmpVal_eq hx hy]
      exact (hagrees x y hx hy).2
    · intro x y hx hy
      rw [hspelling .eq y hy,d.cmpVal_eq hx hy,(hagrees x y hx hy).2]
  · obtain ⟨hty,hmem⟩ := id htext
    have hcollate : t.isCollatableText col = true := by
      rw [PgTable.isCollatableText,htype,hty]
      simp only [List.mem_cons,List.not_mem_nil,or_false] at hmem
      obtain h | h | h | h := hmem <;> simp [h]
    have hknown : (t.pgTypeAt col).isNone = false := by
      cases h : t.pgTypeAt col with
      | none => simp [h] at hmem
      | some ty => rfl
    have hsent : ∀ x, (pg.sent col x).OfType (d.types col) → ∃ s, pg.sent col x = .text s := by
      intro x hx
      have hne := pg.sent_ne_null col x
      rw [hty] at hx
      cases hv : pg.sent col x <;> simp_all [Value.OfType]
    constructor
    · intro x y hx hy
      rw [PgTable.orderTerm,hcollate,d.cmpVal_eq hx hy]
      exact (hpg.codePoints col htext x y hx hy).1
    · intro op hop x y hx hy
      obtain ⟨s,hs⟩ := hsent y hy
      have hordering : op.isOrdering = true := by
        obtain rfl | rfl : op = .lt ∨ op = .gt := by simpa using hop
        all_goals rfl
      have hspelling : t.spelling col op (pg.sent col y) = .collateC := by
        simp [PgTable.spelling,hs,hknown,hcollate,hordering]
      rw [hspelling,d.cmpVal_eq hx hy]
      exact (hpg.codePoints col htext x y hx hy).2
    · intro x y hx hy
      obtain ⟨s,hs⟩ := hsent x hx
      obtain ⟨s',hs'⟩ := hsent y hy
      have hspelling : t.spelling col .eq (pg.sent col y) = .plain := by
        simp [PgTable.spelling,hs',hknown,LeafOp.isOrdering]
      rw [hspelling,hpg.bytes col htext x y (hty ▸ hx) (hty ▸ hy),hs,hs',cmpVal_eq_eq,Value.text.injEq]

/-- What is sent of a cell is of the column's type. -/
lemma StoredRow.cell_some {r : d.StoredRow pg} {col : ℕ} {x : γ} (hx : r.cell col = some x) :
    r.row.row.cell col = pg.sent col x ∧ (pg.sent col x).OfType (d.types col) := by
  have hsent : r.row.row.cell col = pg.sent col x := by
    rw [r.sent,hx]
    rfl
  exact ⟨hsent,hsent ▸ r.row.typed col⟩

/-- A cell is NULL for the client where it is in the database. -/
lemma StoredRow.cell_eq_null (r : d.StoredRow pg) (col : ℕ) : r.row.row.cell col = .null ↔ r.cell col = none := by
  cases hx : r.cell col with
  | none => simp [r.sent,hx]
  | some x => simpa [(r.cell_some hx).1] using pg.sent_ne_null col x

section Faithful
variable {col : ℕ}

/-- Two cells are ordered in a page as the client orders what it is sent of them. -/
lemma Faithful.order_eq (h : Faithful d pg t col) (a b : d.StoredRow pg) :
    orderCells pg t col (a.cell col) (b.cell col) =
      d.cmpVal (a.row.row.cell col) (b.row.row.cell col) (d.types col) := by
  cases hx : a.cell col with
  | none =>
    have hna := (a.cell_eq_null col).mpr hx
    cases hy : b.cell col with
    | none => simp [orderCells,cmpVal,hna,(b.cell_eq_null col).mpr hy]
    | some y =>
      have hnb : b.row.row.cell col ≠ .null := by
        rw [ne_eq,b.cell_eq_null,hy]
        exact Option.some_ne_none y
      simp [orderCells,cmpVal,hna,hnb.symm]
  | some x =>
    obtain ⟨hax,htx⟩ := a.cell_some hx
    cases hy : b.cell col with
    | none => simp [orderCells,cmpVal,hax,(b.cell_eq_null col).mpr hy,pg.sent_ne_null]
    | some y =>
      obtain ⟨hby,hty⟩ := b.cell_some hy
      rw [hax,hby]
      exact h.order x y htx hty

lemma pgTruth_cmp (r : d.StoredRow pg) {op : LeafOp} (hop : op ≠ .like) (value : Value) :
    pgTruth t r (.cmp col op value) = pgCmp t r col op value := by
  cases op <;> first | rfl | exact absurd rfl hop

/-- A comparison with a cell of another row is as SQL has it for the values. -/
lemma Faithful.truth_iff (h : Faithful d pg t col) {b r : d.StoredRow pg} (hnb : b.row.row.cell col ≠ .null)
    {op : LeafOp} (hop : op ∈ [LeafOp.eq,.lt,.gt]) :
    pgTruth t r (.cmp col op (b.row.row.cell col)) = .yes ↔
      sqlCmp (r.row.row.cell col) op (b.row.row.cell col) = .yes := by
  obtain ⟨y,hy⟩ := Option.ne_none_iff_exists'.mp fun hn => hnb ((b.cell_eq_null col).mpr hn)
  obtain ⟨hby,hty⟩ := b.cell_some hy
  rw [pgTruth_cmp r (by rintro rfl; simp at hop),pgCmp]
  cases hx : r.cell col with
  | none => simp [(r.cell_eq_null col).mpr hx,sqlCmp]
  | some x =>
    obtain ⟨hrx,htx⟩ := r.cell_some hx
    have hnr : r.row.row.cell col ≠ .null := hrx ▸ pg.sent_ne_null col x
    have hcmp := d.cmpVal_eq (r.row.typed col) (b.row.typed col)
    have hafter := fun desc => sqlCmp_after (r.row.typed col) (b.row.typed col) hnb desc
    simp only [hnr,ne_eq,not_false_eq_true,true_and] at hafter
    dsimp only
    rw [if_neg hnb,Truth.ofBool_eq_yes]
    simp only [List.mem_cons,List.not_mem_nil,or_false] at hop
    obtain rfl | rfl | rfl := hop
    · calc LeafOp.eq.holds (pg.against col (t.spelling col .eq (b.row.row.cell col)) x (b.row.row.cell col)) = true
          ↔ d.cmpVal (pg.sent col x) (pg.sent col y) (d.types col) = .eq := by
            rw [LeafOp.holds,beq_iff_eq,hby]
            exact h.eq x y htx hty
        _ ↔ sqlCmp (r.row.row.cell col) .eq (b.row.row.cell col) = .yes := by
            rw [← hrx,← hby,hcmp,compare_eq_iff_eq,sqlCmp_eq hnb,eq_comm]
    · calc LeafOp.lt.holds (pg.against col (t.spelling col .lt (b.row.row.cell col)) x (b.row.row.cell col)) = true
          ↔ place (r.row.row.cell col) < place (b.row.row.cell col) := by
            rw [LeafOp.holds,beq_iff_eq,← compare_lt_iff_lt,← hcmp,hrx,hby]
            exact Eq.congr_left (h.strict .lt (by simp) x y htx hty)
        _ ↔ sqlCmp (r.row.row.cell col) .lt (b.row.row.cell col) = .yes := (hafter true).symm
    · calc LeafOp.gt.holds (pg.against col (t.spelling col .gt (b.row.row.cell col)) x (b.row.row.cell col)) = true
          ↔ place (b.row.row.cell col) < place (r.row.row.cell col) := by
            rw [LeafOp.holds,beq_iff_eq,← compare_gt_iff_gt,← hcmp,hrx,hby]
            exact Eq.congr_left (h.strict .gt (by simp) x y htx hty)
        _ ↔ sqlCmp (r.row.row.cell col) .gt (b.row.row.cell col) = .yes := (hafter false).symm

/-- A test for NULL is as SQL has it for the values. -/
lemma pgTruth_isNull (r : d.StoredRow pg) (b : Bool) : pgTruth t r (.isNull col b) =
    (CompiledPredicate.isNull col b).sqlEval r.row.row fun _ => ∅ := by
  have h : (r.cell col).isNone = decide (r.row.row.cell col = .null) := by
    rw [Bool.eq_iff_iff,decide_eq_true_iff,r.cell_eq_null,Option.isNone_iff_eq_none]
  rw [pgTruth,CompiledPredicate.sqlEval,h]

section
variable {r : d.StoredRow pg} {p q : CompiledPredicate}
  (hp : pgTruth t r p = .yes ↔ p.sqlEval r.row.row (fun _ => ∅) = .yes)
  (hq : pgTruth t r q = .yes ↔ q.sqlEval r.row.row (fun _ => ∅) = .yes)
include hp hq

lemma pgTruth_and :
    pgTruth t r (.and [p,q]) = .yes ↔ (CompiledPredicate.and [p,q]).sqlEval r.row.row (fun _ => ∅) = .yes := by
  simp [pgTruth,pgTruths,CompiledPredicate.sqlEval,CompiledPredicate.sqlEvals,Truth.min_eq_yes,hp,hq]

lemma pgTruth_or :
    pgTruth t r (.or [p,q]) = .yes ↔ (CompiledPredicate.or [p,q]).sqlEval r.row.row (fun _ => ∅) = .yes := by
  simp [pgTruth,pgTruths,CompiledPredicate.sqlEval,CompiledPredicate.sqlEvals,Truth.max_eq_yes,hp,hq]

end

end Faithful

section FaithfulOrder
variable (h : ∀ col ∈ orderCols d, Faithful d pg t col)
include h

/-- A page is ordered as the client orders rows. -/
lemma pageOrder_eq (a b : d.StoredRow pg) : pageOrder t a b = d.cmp a.row b.row := by
  have hpk := (h d.pk (by simp [orderCols])).order_eq a b
  rw [pageOrder,cmp]
  cases ho : d.orderBy with
  | none => exact hpk
  | some o =>
    have hcol := (h o.1 (by simp [orderCols,ho])).order_eq a b
    dsimp only
    rw [hpk,hcol]

/-- The cursor finds in the database what it finds among the rows that the client is sent. -/
theorem pgTruth_cursor (b r : d.StoredRow pg) :
    pgTruth t r (d.cursorPredicate b.row) = .yes ↔ d.cmp b.row r.row = .lt := by
  rw [← d.cursorPredicate_spec b.row r.row fun _ => ∅]
  have hpk : ∀ op ∈ [LeafOp.eq,.lt,.gt], pgTruth t r (.cmp d.pk op (b.row.row.cell d.pk)) = .yes ↔
      sqlCmp (r.row.row.cell d.pk) op (b.row.row.cell d.pk) = .yes :=
    fun op hop => (h d.pk (by simp [orderCols])).truth_iff b.row.key hop
  rw [cursorPredicate]
  cases ho : d.orderBy with
  | none => exact hpk .gt (by simp)
  | some o =>
    obtain ⟨col,desc⟩ := o
    have hcol := h col (by simp [orderCols,ho])
    have hstrict : (if desc then LeafOp.lt else .gt) ∈ [LeafOp.eq,.lt,.gt] := by cases desc <;> simp
    have hpk' := hpk (if desc then .lt else .gt) hstrict
    have hisNull : ∀ null, pgTruth t r (.isNull col null) = .yes ↔
        (CompiledPredicate.isNull col null).sqlEval r.row.row (fun _ => ∅) = .yes := by
      intro null
      rw [pgTruth_isNull]
    dsimp only
    by_cases hnb : b.row.row.cell col = .null
    · have hblock := pgTruth_and (hisNull true) hpk'
      rw [if_pos hnb]
      cases desc with
      | false => exact hblock
      | true => exact pgTruth_or hblock (hisNull false)
    · have hbefore := hcol.truth_iff (r := r) hnb hstrict
      have heq := hcol.truth_iff (r := r) hnb (List.mem_cons_self (a := LeafOp.eq))
      have hafter := pgTruth_or hbefore (pgTruth_and heq hpk')
      rw [if_neg hnb]
      cases desc with
      | false => exact pgTruth_or hafter (hisNull true)
      | true => exact hafter

end FaithfulOrder

instance : Std.TransCmp fun a b : d.StoredRow pg => d.cmp a.row b.row where
  eq_swap {a b} := @Std.OrientedCmp.eq_swap _ d.cmp _ a.row b.row
  isLE_trans {a b c} := @Std.TransCmp.isLE_trans _ d.cmp _ a.row b.row c.row

/-- Where two rows do not have one key, they are not in one place. -/
lemma cmp_ne_eq {a b : d.StoredRow pg}
    (hkey : d.cmpVal (a.row.row.cell d.pk) (b.row.row.cell d.pk) (d.types d.pk) ≠ .eq) :
    d.cmp a.row b.row ≠ .eq := by
  rw [cmp]
  cases d.orderBy with
  | none => exact hkey
  | some o =>
    have hdirected : directed o.2 (d.cmpVal (a.row.row.cell d.pk) (b.row.row.cell d.pk) (d.types d.pk)) ≠ .eq := by
      unfold directed
      cases o.2 <;> simpa using hkey
    dsimp only
    rw [ne_eq,Ordering.then_eq_eq]
    exact fun heq => hdirected heq.2

section Pages
variable {rows : List (d.StoredRow pg)} (h : ∀ col ∈ orderCols d, Faithful d pg t col)
  (hkeys : rows.Pairwise fun a b => d.cmpVal (a.row.row.cell d.pk) (b.row.row.cell d.pk) (d.types d.pk) ≠ .eq)
include h hkeys

/-- Rows of the table in the order of a page are in the client's. -/
lemma sorted_of_pageOrder {all : List (d.StoredRow pg)} {f : d.StoredRow pg → Bool} (hperm : all.Perm (rows.filter f))
    (hsorted : all.Pairwise fun a b => pageOrder t a b ≠ .gt) :
    all.Pairwise fun a b => d.cmp a.row b.row = .lt := by
  have hsymm : ∀ {a b : d.StoredRow pg}, d.cmp a.row b.row ≠ .eq → d.cmp b.row a.row ≠ .eq := by
    intro a b hne heq
    exact hne (Std.OrientedCmp.eq_symm heq)
  have hne : all.Pairwise fun a b => d.cmp a.row b.row ≠ .eq :=
    (hperm.pairwise_iff hsymm).mpr ((hkeys.imp cmp_ne_eq).filter f)
  refine List.Pairwise.imp₂ ?_ hsorted hne
  intro a b hle hne
  rw [pageOrder_eq h] at hle
  cases hcmp : d.cmp a.row b.row <;> simp_all

/-- What a page query answers is a page of the client's order. -/
lemma Answers.isPage {f : d.StoredRow pg → Truth} {limit offset : ℕ} {page : List (d.StoredRow pg)}
    (hpage : Answers t rows f limit offset page) :
    Keyset.IsPage (fun a b => d.cmp a.row b.row) (fun r => r ∈ rows ∧ f r = .yes) offset limit page := by
  obtain ⟨all,hperm,hsorted,heq⟩ := hpage
  refine ⟨all,sorted_of_pageOrder h hkeys hperm hsorted,fun r => ?_,heq⟩
  rw [hperm.mem_iff,List.mem_filter,decide_eq_true_iff]

/-- What `loadMore` fetches is a page of what comes after the boundary. -/
lemma LoadMore.isPage {base : d.StoredRow pg → Truth} {b : d.StoredRow pg} {n : ℕ} {page : List (d.StoredRow pg)}
    (hpage : LoadMore t rows base b n page) :
    Keyset.IsPage (fun a b => d.cmp a.row b.row)
      (fun r => (r ∈ rows ∧ base r = .yes) ∧ d.cmp b.row r.row = .lt) 0 n page := by
  have hpage := Answers.isPage h hkeys hpage
  simp only [Truth.min_eq_yes,pgTruth_cursor h,← and_assoc] at hpage
  exact hpage

/-- The pages are one after the other the rows of the base filter, in the client's order. -/
theorem Pages.eq_take {base : d.StoredRow pg → Truth} {sizes : List ℕ} {out all : List (d.StoredRow pg)}
    (hpages : Pages t rows base sizes out)
    (hall : Keyset.Listing (fun a b => d.cmp a.row b.row) (fun r => r ∈ rows ∧ base r = .yes) all) :
    out = (all.drop d.offset).take (if d.limit = 0 then 0 else d.limit + sizes.sum) := by
  have hfirst : ∀ page, Answers t rows base d.limit d.offset page → page = (all.drop d.offset).take d.limit := by
    intro page hpage
    obtain ⟨all',hall',heq⟩ := Keyset.isPage_iff.mp (Answers.isPage h hkeys hpage)
    rw [heq,hall'.unique hall]
  cases hpages with
  | ended hpage hend =>
    by_cases hzero : d.limit = 0
    · rw [if_pos hzero,hfirst _ hpage,hzero]
    · have hshort := hend.resolve_left hzero
      have heq := hfirst _ hpage
      rw [heq,List.length_take] at hshort
      rw [if_neg hzero,heq,List.take_of_length_le (by omega),List.take_of_length_le (by omega)]
  | loads hpage hopen hb hmore =>
    rw [if_neg fun hzero => hopen (.inl hzero)]
    have hmore' := hmore.mono fun b n page hpage => LoadMore.isPage h hkeys hpage
    exact hmore'.append_eq_take hall (hfirst _ hpage) hb

end Pages

section
variable (rows : List (d.StoredRow pg)) (h : ∀ col ∈ orderCols d, Faithful d pg t col)
include h

/-- The rows that a filter finds can be brought in the order of a page. -/
lemma exists_sorted (f : d.StoredRow pg → Bool) :
    ∃ all : List (d.StoredRow pg), all.Perm (rows.filter f) ∧ all.Pairwise fun a b => pageOrder t a b ≠ .gt := by
  let le (a b : d.StoredRow pg) : Bool := (d.cmp a.row b.row).isLE
  have htotal : ∀ a b, le a b || le b a := by
    intro a b
    have hswap : d.cmp a.row b.row = (d.cmp b.row a.row).swap := Std.OrientedCmp.eq_swap
    simp only [le,hswap]
    cases d.cmp b.row a.row <;> rfl
  have hsorted : ((rows.filter f).mergeSort le).Pairwise fun a b => le a b :=
    List.pairwise_mergeSort (fun a b c => Std.TransCmp.isLE_trans) htotal _
  refine ⟨(rows.filter f).mergeSort le,List.mergeSort_perm _ _,hsorted.imp ?_⟩
  intro a b hle
  rw [pageOrder_eq h]
  exact Ordering.isLE_iff_ne_gt.mp hle

/-- Every query has an answer, so there are pages of every size. -/
lemma Pages.exists (base : d.StoredRow pg → Truth) (sizes : List ℕ) : ∃ out, Pages t rows base sizes out := by
  have hanswers : ∀ (f : d.StoredRow pg → Truth) limit offset, ∃ page, Answers t rows f limit offset page := by
    intro f limit offset
    obtain ⟨all,hperm,hsorted⟩ := exists_sorted rows h fun r => f r = .yes
    exact ⟨_,all,hperm,hsorted,rfl⟩
  obtain ⟨page,hpage⟩ := hanswers base d.limit d.offset
  by_cases hend : d.limit = 0 ∨ page.length < d.limit
  · exact ⟨page,.ended hpage hend⟩
  · cases hb : page.getLast? with
    | none =>
      rw [List.getLast?_eq_none_iff.mp hb,List.length_nil] at hend
      omega
    | some b =>
      have hmore : ∀ b n, ∃ page, LoadMore t rows base b n page := fun b n => hanswers _ n 0
      obtain ⟨out,hout⟩ := Keyset.Loads.exists hmore b sizes
      exact ⟨page ++ out,.loads hpage hend hb hout⟩

end

/-- The cursor of a row finds exactly the rows that the client has after it, and the pages of any sizes, each behind
the last row of the one before, are the rows of the base filter in the client's order, from the offset on. -/
theorem keyset_pages (hpg : Documented d pg t) (hcols : ∀ col ∈ orderCols d, d.Comparable t col)
    (rows : List (d.StoredRow pg))
    (hkeys : rows.Pairwise fun a b => d.cmpVal (a.row.row.cell d.pk) (b.row.row.cell d.pk) (d.types d.pk) ≠ .eq)
    (base : d.StoredRow pg → Truth) :
    (∀ b r : d.StoredRow pg, pgTruth t r (d.cursorPredicate b.row) = .yes ↔ d.cmp b.row r.row = .lt) ∧
    ∃ all : List (d.StoredRow pg), all.Perm (rows.filter fun r => base r = .yes) ∧
      all.Pairwise (fun a b => d.cmp a.row b.row = .lt) ∧ ∀ sizes,
        (∃ out, Pages t rows base sizes out) ∧ ∀ out, Pages t rows base sizes out →
          out = (all.drop d.offset).take (if d.limit = 0 then 0 else d.limit + sizes.sum) := by
  have h : ∀ col ∈ orderCols d, Faithful d pg t col := fun col hcol => (hcols col hcol).faithful hpg
  obtain ⟨all,hperm,hpages⟩ := exists_sorted rows h fun r => base r = .yes
  have hsorted := sorted_of_pageOrder h hkeys hperm hpages
  refine ⟨pgTruth_cursor h,all,hperm,hsorted,fun sizes => ⟨Pages.exists rows h base sizes,fun out hout => ?_⟩⟩
  refine hout.eq_take h hkeys ⟨hsorted,fun r => ?_⟩
  rw [hperm.mem_iff,List.mem_filter,decide_eq_true_iff]

section Samples

/-- A table of numbered names, whose columns' types may be known. -/
def sampleNames (pgTypes : List (Option String)) : PgTable where
  table := "public.names"
  columns := [("id",.int),("name",.text)]
  pkCols := [0]
  names_nodup := by simp
  pk_ne_nil := by simp
  pk_lt := by simp
  pgTypes := pgTypes

def sampleByName (desc : Bool) : SubsetDef where
  types col := if col = 1 then .text else .int
  pk := 0
  orderBy := some (1,desc)
  limit := 1
  offset := 0
  selects _ := true
  doubleText _ := ""

/-- As in a dictionary: the letters first, and their cases where these are alike. -/
def dictionaryOrder (s s' : String) : Ordering :=
  (compare s.toLower s'.toLower).then (compare s s')

/-- A database whose default collation is that of a dictionary. -/
def sampleCells : PgCells (ℤ ⊕ String) where
  sent _ x := x.elim .int .text
  order _ s
    | .inl i,.inl j => compare i j
    | .inr a,.inr b => if s = .collateC then compare a b else dictionaryOrder a b
    | _,_ => .lt
  against _ s
    | .inl i,.int j => compare i j
    | .inr a,.text b => if s = .collateC then compare a b else dictionaryOrder a b
    | _,_ => .lt
  sent_ne_null _ x := by cases x <;> simp

def sampleName (desc : Bool) (id : ℤ) (name : Option String) : (sampleByName desc).StoredRow sampleCells where
  cell
    | 0 => some (.inl id)
    | 1 => name.map .inr
    | _ => none
  row := {
    row := ⟨[.int id,(name.map .text).getD .null]⟩
    typed := fun
      | 0 => rfl
      | 1 => by cases name <;> simp [Row.cell,Value.OfType,sampleByName]
      | _+2 => by simp [Row.cell,Value.OfType]
    key := by simp [Row.cell,sampleByName] }
  sent
    | 0 => rfl
    | 1 => by cases name <;> rfl
    | _+2 => rfl

/-- The sorts of cells that a client is sent as of a type. -/
lemma sampleCells_typed {desc : Bool} {col : ℕ} {x : ℤ ⊕ String}
    (hx : (sampleCells.sent col x).OfType ((sampleByName desc).types col)) :
    if col = 1 then ∃ s, x = .inr s else ∃ i, x = .inl i := by
  by_cases hcol : col = 1 <;> cases x <;> simp_all [sampleCells,sampleByName,Value.OfType]

/-- It does as the documentation says. -/
lemma documented_sampleCells (desc : Bool) {type : Option String} (htype : type ≠ some "uuid") :
    Documented (sampleByName desc) sampleCells (sampleNames [none,type]) := by
  constructor
  · intro col hown x y hx hy
    have hcol : col ≠ 1 := by
      rintro rfl
      exact htype hown
    have hxi := sampleCells_typed hx
    have hyj := sampleCells_typed hy
    rw [if_neg hcol] at hxi hyj
    obtain ⟨i,rfl⟩ := hxi
    obtain ⟨j,rfl⟩ := hyj
    have hplace : compare i j = compare (place (.int i)) (place (.int j)) := by
      have hcmp := (sampleByName desc).cmpVal_eq (a := .int i) (b := .int j) rfl rfl
      rw [← hcmp]
      by_cases hij : i = j <;> simp [cmpVal,hij]
    exact ⟨hplace,hplace⟩
  · intro col htext x y hx hy
    have hxs := sampleCells_typed hx
    have hys := sampleCells_typed hy
    have hcol : col = 1 := by
      by_contra hne
      exact absurd htext.1 (by simp [sampleByName,hne])
    rw [if_pos hcol] at hxs hys
    obtain ⟨s,rfl⟩ := hxs
    obtain ⟨s',rfl⟩ := hys
    have hplace : compare s s' = compare (place (.text s)) (place (.text s')) := by
      have hcmp := (sampleByName desc).cmpVal_eq (a := .text s) (b := .text s') rfl rfl
      rw [← hcmp]
      by_cases hss : s = s' <;> simp [cmpVal,text,hss]
    exact ⟨hplace,hplace⟩
  · intro col htext x y hx hy
    cases x with
    | inl i => cases hx
    | inr s =>
      cases y with
      | inl j => cases hy
      | inr s' =>
        have horder : dictionaryOrder s s' = .eq ↔ s = s' := by
          rw [dictionaryOrder,Ordering.then_eq_eq,compare_eq_iff_eq,compare_eq_iff_eq]
          exact ⟨fun hss => hss.2,fun hss => ⟨by rw [hss],hss⟩⟩
        exact horder.trans (Iff.of_eq (Value.text.injEq s s').symm)

/-- Pages in descending order of a name that is known to be a text. -/
theorem sample_pages :
    (∀ b r : (sampleByName true).StoredRow sampleCells,
      pgTruth (sampleNames [none,some "text"]) r ((sampleByName true).cursorPredicate b.row) = .yes ↔
        (sampleByName true).cmp b.row r.row = .lt) ∧
    ∃ all : List ((sampleByName true).StoredRow sampleCells),
      all.Perm ([sampleName true 1 (some "a"),sampleName true 2 (some "B"),sampleName true 3 none].filter
        fun _ => Truth.yes = .yes) ∧
      all.Pairwise (fun a b => (sampleByName true).cmp a.row b.row = .lt) ∧ ∀ sizes,
        (∃ out, Pages (sampleNames [none,some "text"])
          [sampleName true 1 (some "a"),sampleName true 2 (some "B"),sampleName true 3 none] (fun _ => .yes)
          sizes out) ∧
        ∀ out, Pages (sampleNames [none,some "text"])
          [sampleName true 1 (some "a"),sampleName true 2 (some "B"),sampleName true 3 none] (fun _ => .yes)
          sizes out → out = (all.drop 0).take (if (1 : ℕ) = 0 then 0 else 1 + sizes.sum) := by
  refine keyset_pages (documented_sampleCells true (by simp)) ?_ _ ?_ _
  · intro col hcol
    simp only [orderCols,sampleByName,Option.map_some,Option.toList_some,List.cons_append,List.nil_append,
      List.mem_cons,List.not_mem_nil,or_false] at hcol
    obtain rfl | rfl := hcol
    · exact ⟨rfl,.inr ⟨rfl,by decide⟩⟩
    · exact ⟨rfl,.inl trivial⟩
  · decide

/-- In a table that was declared the name is a text of an unknown type. The client has `a` after `B`, the database
before it, and the next page starts behind it. -/
theorem sample_declared : Documented (sampleByName false) sampleCells (sampleNames [none,none]) ∧
    ¬(pgTruth (sampleNames [none,none]) (sampleName false 1 (some "a"))
        ((sampleByName false).cursorPredicate (sampleName false 2 (some "B")).row) = .yes ↔
      (sampleByName false).cmp (sampleName false 2 (some "B")).row (sampleName false 1 (some "a")).row = .lt) := by
  refine ⟨documented_sampleCells false (by simp),?_⟩
  decide +kernel

end Samples

end SubsetDef
end ElectricCircuits
