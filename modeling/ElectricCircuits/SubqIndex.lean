import ElectricCircuits.CanonicalSound
import ElectricCircuits.KeyString
import ElectricCircuits.Lib.Postings
import ElectricCircuits.StandaloneIndex
import Mathlib.Data.Finset.Sort
import Mathlib.Data.List.ReduceOption
import Mathlib.Data.Set.Card

/-! The index of subquery shapes by a necessary conjunct of their outer predicate, over dense ids that are
used again, and that its candidates are exactly the shapes whose conjunct a change satisfies. -/
namespace ElectricCircuits

/-- A literal is NULL or of the type of its column. -/
lemma literalFromJson_hasType {parseF64 : String → Option OrderedFloat} {j : Json} {ty : ColumnType}
    {v : Value} (h : Value.literalFromJson parseF64 j ty = .ok v) : v = .null ∨ v.HasType ty := by
  unfold Value.literalFromJson at h
  split at h
  · split at h
    · obtain rfl := Except.ok.inj h
      exact .inr trivial
    all_goals
      split at h <;> try split at h
    all_goals
      first
      | cases h; done
      | (obtain rfl := Except.ok.inj h
         exact .inr trivial)
  · exact TableSchema.fromJson_hasType h

namespace AccessLeaf

def col : AccessLeaf → ℕ
  | eq col _ | lower col _ _ | upper col _ _ => col

def value : AccessLeaf → Value
  | eq _ value | lower _ value _ | upper _ value _ => value

/-- The comparison that the conjunct was taken from. -/
def comparison : AccessLeaf → CompiledPredicate
  | eq col value => .cmp col .eq value
  | lower col value strict => .cmp col (if strict then .gt else .gte) value
  | upper col value strict => .cmp col (if strict then .lt else .lte) value

/-- The literal of the conjunct is of the type of its column. -/
def Typed (ts : TableSchema) (l : AccessLeaf) : Prop :=
  ∃ c, ts.columns[l.col]? = some c ∧ l.value.HasType c.2

/-- The order of the postings is the evaluator's where the cell and the literal are of one type. -/
lemma holds_iff {l : AccessLeaf} {row : Row} (hvalue : l.value ≠ .null)
    (hrank : row.cell l.col = .null ∨ (row.cell l.col).rank = l.value.rank) :
    l.Holds row ↔ l.comparison.matchesRow row = true := by
  rw [CompiledPredicate.matchesRow_iff]
  by_cases hcell : row.cell l.col = .null
  · cases l <;> simp only [col] at hcell <;>
      simp [Holds,comparison,CompiledPredicate.evalCtx,cmp,hcell]
  have hrank := hrank.resolve_left hcell
  cases l with
  | eq col value => exact ⟨fun h => (CompiledPredicate.eval_eq hvalue).mpr h.2,fun h =>
      ⟨hcell,(CompiledPredicate.eval_eq hvalue).mp h⟩⟩
  | lower col value strict =>
    have hord : (row.cell col).ordering value = some (compare (row.cell col).code value.code) := by
      rw [Value.ordering_eq,if_pos ⟨hrank,hcell⟩]
    simp only [AccessLeaf.value] at hvalue
    simp only [AccessLeaf.col] at hcell
    rcases lt_trichotomy (row.cell col).code value.code with h | h | h
    · have hc := compare_lt_iff_lt.mpr h
      cases strict <;> simp [Holds,comparison,CompiledPredicate.evalCtx,cmp,hcell,hvalue,hord,hc,h.not_ge]
    · cases strict <;> simp [Holds,comparison,CompiledPredicate.evalCtx,cmp,hcell,hvalue,hord,h]
    · have hc := compare_gt_iff_gt.mpr h
      cases strict <;> simp [Holds,comparison,CompiledPredicate.evalCtx,cmp,hcell,hvalue,hord,hc,h.le,h.ne]
  | upper col value strict =>
    have hord : (row.cell col).ordering value = some (compare (row.cell col).code value.code) := by
      rw [Value.ordering_eq,if_pos ⟨hrank,hcell⟩]
    simp only [AccessLeaf.value] at hvalue
    simp only [AccessLeaf.col] at hcell
    rcases lt_trichotomy (row.cell col).code value.code with h | h | h
    · have hc := compare_lt_iff_lt.mpr h
      cases strict <;> simp [Holds,comparison,CompiledPredicate.evalCtx,cmp,hcell,hvalue,hord,hc,h.le,h.ne']
    · cases strict <;> simp [Holds,comparison,CompiledPredicate.evalCtx,cmp,hcell,hvalue,hord,h]
    · have hc := compare_gt_iff_gt.mpr h
      cases strict <;> simp [Holds,comparison,CompiledPredicate.evalCtx,cmp,hcell,hvalue,hord,hc,h.not_ge]

lemma Typed.value_ne_null {ts : TableSchema} {l : AccessLeaf} (h : l.Typed ts) : l.value ≠ .null := by
  obtain ⟨c,-,hc⟩ := h
  rintro hnull
  rw [hnull] at hc
  cases hc

/-- On a row of the table a conjunct of its type holds exactly when the comparison is TRUE. -/
lemma Typed.holds_iff {ts : TableSchema} {l : AccessLeaf} (h : l.Typed ts) {j : Json} {row : Row}
    (hrow : ts.rowFromJson j = .ok row) : l.Holds row ↔ l.comparison.matchesRow row = true := by
  refine AccessLeaf.holds_iff h.value_ne_null ?_
  obtain ⟨c,hcol,hc⟩ := h
  exact ((TableSchema.hasType_of_json hrow).2 _ c hcol).imp_right fun hcell => hcell.rank_eq hc

/-- Conjuncts of one bucket hold on the same rows. -/
lemma Same.holds {l l' : AccessLeaf} (h : Same (some l) (some l')) {row : Row} (hl' : l'.Holds row) :
    l.Holds row := by
  cases l with
  | eq col value =>
    cases l' with
    | eq col' value' =>
      obtain ⟨rfl,hv⟩ := h
      exact ⟨hl'.1,BEq.trans hl'.2 (BEq.symm hv)⟩
    | _ => cases h
  | lower col value strict =>
    cases l' with
    | lower col' value' strict' =>
      obtain ⟨rfl,hv,rfl⟩ := h
      rw [Holds,(Value.beq_iff_code value value').mp hv]
      exact hl'
    | _ => cases h
  | upper col value strict =>
    cases l' with
    | upper col' value' strict' =>
      obtain ⟨rfl,hv,rfl⟩ := h
      rw [Holds,(Value.beq_iff_code value value').mp hv]
      exact hl'
    | _ => cases h

lemma Same.value_ne_null {l l' : AccessLeaf} (h : Same (some l) (some l')) (hl : l.value ≠ .null) :
    l'.value ≠ .null := by
  have hbeq : (l.value == l'.value) = true := by
    cases l <;> cases l' <;> first | exact h.2 | exact h.2.1 | cases h
  intro hnull
  rw [hnull] at hbeq
  exact hl ((Value.eqv_null _).mp hbeq)

end AccessLeaf

namespace CompiledPredicate
variable {parseF64 : String → Option OrderedFloat} {ts : TableSchema} {collector : SubqueryCollector}

/-- A comparison that was compiled reads a column, against NULL or a literal of its type. -/
lemma compileWith_cmp {q : PredicateJson} {col : ℕ} {op : LeafOp} {v : Value}
    (h : compileWith parseF64 ts collector q = .ok (.cmp col op v)) :
    ∃ c, ts.columns[col]? = some c ∧ (v = .null ∨ v.HasType c.2) := by
  cases q with
  | leaf name op' value =>
    simp only [compileWith,bind_eq_ok] at h
    obtain ⟨i,hi,w,hw,h⟩ := h
    obtain ⟨rfl,-,rfl⟩ := cmp.inj (Except.ok.inj h)
    rw [TableSchema.columnIndex] at hi
    split at hi
    · next i' hidx =>
      obtain rfl := Except.ok.inj hi
      have hlt : i' < ts.columns.length := by
        obtain ⟨h',-⟩ := List.idxOf?_eq_some_iff.mp hidx
        simpa using h'
      have htype := literalFromJson_hasType hw
      rw [TableSchema.columnType,List.getD_eq_getElem?_getD,List.getElem?_eq_getElem hlt] at htype
      exact ⟨_,List.getElem?_eq_getElem hlt,htype⟩
    · cases hi
  | inSubquery name negated table project where_ =>
    simp only [compileWith,bind_eq_ok] at h
    obtain ⟨_,-,_,-,h⟩ := h
    cases h
  | _ =>
    simp only [compileWith,bind_eq_ok] at h
    obtain ⟨_,-,h⟩ := h
    cases h

lemma leafOf_typed {p : CompiledPredicate} {l : AccessLeaf} (h : leafOf p = some l)
    {q : PredicateJson} (hq : compileWith parseF64 ts collector q = .ok p) : l.Typed ts := by
  cases p with
  | cmp col op v =>
    obtain ⟨c,hc,hv⟩ := compileWith_cmp hq
    simp only [leafOf] at h
    split_ifs at h with hnull
    have hl : l.col = col ∧ l.value = v := by
      cases op <;> cases h <;> exact ⟨rfl,rfl⟩
    exact ⟨c,by rw [hl.1,hc],by rw [hl.2]; exact hv.resolve_left hnull⟩
  | _ => cases h

lemma collectLeaf_typed (q : PredicateJson) : ∀ p, compileWith parseF64 ts collector q = .ok p →
    ∀ best, (∀ b ∈ best, AccessLeaf.Typed ts b) → ∀ l ∈ collectLeaf best p, l.Typed ts := by
  have hleaf : ∀ p, (∀ ps, p ≠ .and ps) → ∀ q, compileWith parseF64 ts collector q = .ok p →
      ∀ best, (∀ b ∈ best, AccessLeaf.Typed ts b) → ∀ l ∈ collectLeaf best p, l.Typed ts := by
    intro p hp q hq best hbest l hl
    have hdef : collectLeaf best p =
        ((leafOf p).map fun l => if better best l then some l else best).getD best := by
      rw [collectLeaf]
      · cases leafOf p <;> rfl
      · exact hp
    rw [hdef] at hl
    cases hlf : leafOf p with
    | none => exact hbest l (by simpa [hlf] using hl)
    | some x =>
      simp only [hlf,Option.map_some,Option.getD_some] at hl
      split_ifs at hl
      · obtain rfl := Option.some.inj hl
        exact leafOf_typed hlf hq
      · exact hbest l hl
  induction q using PredicateJson.induction_on with
  | and qs ih =>
    intro p hp best hbest l hl
    simp only [compileWith,bind_eq_ok,compileAll_eq_ok] at hp
    obtain ⟨ps,hps,hp⟩ := hp
    obtain rfl := Except.ok.inj hp
    rw [collectLeaf] at hl
    clear hp
    induction hps generalizing best with
    | nil => exact hbest l hl
    | @cons q p qs ps hqp hqs ihs =>
      obtain ⟨hq,hqs⟩ := List.forall_mem_cons.mp ih
      exact ihs hqs (collectLeaf best p) (hq p hqp best hbest) hl
  | _ =>
    intro p hp
    refine hleaf p (fun ps hand => ?_) _ hp
    rw [hand] at hp
    simp [compileWith,bind_eq_ok,pure,Except.pure] at hp

/-- The conjunct of a compiled predicate is of the type of its column. -/
theorem accessLeaf_typed {q : Option PredicateJson} {p : CompiledPredicate}
    (h : compileOptWith parseF64 ts collector q = .ok p) : ∀ l ∈ p.accessLeaf, l.Typed ts := by
  cases q with
  | none =>
    obtain rfl := Except.ok.inj h
    exact nofun
  | some q => exact collectLeaf_typed q p h none nofun

end CompiledPredicate

/-- The postings of one bound; at the bound itself only the inclusive ones qualify. -/
structure Bound where
  strict : Finset ℕ
  inclusive : Finset ℕ
  deriving DecidableEq

namespace Bound

instance : Inhabited Bound := ⟨∅,∅⟩

def add (sid : ℕ) (isStrict : Bool) (b : Bound) : Bound :=
  if isStrict then { b with strict := insert sid b.strict } else { b with inclusive := insert sid b.inclusive }

def remove (sid : ℕ) (b : Bound) : Bound := ⟨b.strict.erase sid,b.inclusive.erase sid⟩

def ids (b : Bound) (isStrict : Bool) : Finset ℕ := if isStrict then b.strict else b.inclusive

/-- The ids that a cell at the bound or past it qualifies. -/
def reached (b : Bound) (bound cell : Value) : Finset ℕ :=
  if bound == cell then b.inclusive else b.strict ∪ b.inclusive

@[simp] lemma ids_default (isStrict : Bool) : (default : Bound).ids isStrict = ∅ := by
  cases isStrict <;> rfl

lemma mem_ids_add {b : Bound} {sid sid' : ℕ} {isStrict isStrict' : Bool} :
    sid' ∈ (b.add sid isStrict).ids isStrict' ↔
      sid' ∈ b.ids isStrict' ∨ sid' = sid ∧ isStrict = isStrict' := by
  cases isStrict <;> cases isStrict' <;> simp [add,ids,or_comm]

lemma mem_ids_remove {b : Bound} {sid sid' : ℕ} {isStrict : Bool} :
    sid' ∈ (b.remove sid).ids isStrict ↔ sid' ∈ b.ids isStrict ∧ sid' ≠ sid := by
  cases isStrict <;> simp [remove,ids,and_comm]

lemma mem_reached {b : Bound} {bound cell : Value} {sid : ℕ} : sid ∈ b.reached bound cell ↔
    ∃ isStrict, sid ∈ b.ids isStrict ∧ (isStrict = true → bound.code ≠ cell.code) := by
  have hbeq := Value.beq_iff_code bound cell
  rw [reached]
  split_ifs with h
  · have hcode := hbeq.mp h
    simp [ids,hcode]
  · have hcode : bound.code ≠ cell.code := fun hc => h (hbeq.mpr hc)
    simp [ids,hcode,or_comm]

end Bound

/-- The postings of one outer table. -/
structure TableIndex where
  eq : Postings ℕ Value (Finset ℕ)
  lower : Postings ℕ Value Bound
  upper : Postings ℕ Value Bound
  scan : Finset ℕ

/-- The union of some postings. -/
def unionAll (xs : List (Finset ℕ)) : Finset ℕ := xs.foldr (· ∪ ·) ∅

@[simp] lemma mem_unionAll {xs : List (Finset ℕ)} {sid : ℕ} : sid ∈ unionAll xs ↔ ∃ x ∈ xs, sid ∈ x := by
  induction xs with
  | nil => simp [unionAll]
  | cons x xs ih =>
    change sid ∈ x ∪ unionAll xs ↔ _
    rw [Finset.mem_union,ih,List.exists_mem_cons_iff]

lemma mem_put_eq {b : Postings ℕ Value (Finset ℕ)} {col col' sid sid' : ℕ} {value value' : Value} :
    sid' ∈ (b.put col value (insert sid)).lookup col' value' ↔
      sid' ∈ b.lookup col' value' ∨ sid' = sid ∧ col = col' ∧ (value == value') = true := by
  rw [Postings.lookup_put]
  simp only [beq_iff_eq]
  split_ifs with h
  · simp [h,or_comm]
  · simp [h]

lemma mem_put_ids {b : Postings ℕ Value Bound} {col col' sid sid' : ℕ} {value value' : Value}
    {strict strict' : Bool} :
    sid' ∈ ((b.put col value (·.add sid strict)).lookup col' value').ids strict' ↔
      sid' ∈ (b.lookup col' value').ids strict' ∨
        sid' = sid ∧ col = col' ∧ (value == value') = true ∧ strict = strict' := by
  rw [Postings.lookup_put]
  simp only [beq_iff_eq]
  split_ifs with h
  · simp [Bound.mem_ids_add,h]
  · simp only [iff_self_or]
    exact fun hs => absurd ⟨hs.2.1,hs.2.2.1⟩ h

lemma mem_take_eq {b : Postings ℕ Value (Finset ℕ)} {col col' sid sid' : ℕ} {value value' : Value} :
    sid' ∈ (b.take col value (·.erase sid)).lookup col' value' ↔
      sid' ∈ b.lookup col' value' ∧ ¬(sid' = sid ∧ col = col' ∧ (value == value') = true) := by
  rw [Postings.lookup_take b col col' value value' (Finset.erase_empty sid)]
  simp only [beq_iff_eq]
  split_ifs with h
  · simp [h,and_comm]
  · simp only [iff_self_and]
    exact fun _ hs => h hs.2

lemma mem_take_ids {b : Postings ℕ Value Bound} {col col' sid sid' : ℕ} {value value' : Value}
    {strict' : Bool} :
    sid' ∈ ((b.take col value (·.remove sid)).lookup col' value').ids strict' ↔
      sid' ∈ (b.lookup col' value').ids strict' ∧
        ¬(sid' = sid ∧ col = col' ∧ (value == value') = true) := by
  have hnone : (default : Bound).remove sid = default := by simp [Bound.remove,default]
  rw [Postings.lookup_take b col col' value value' hnone]
  simp only [beq_iff_eq]
  split_ifs with h
  · simp [Bound.mem_ids_remove,h]
  · simp only [iff_self_and]
    exact fun _ hs => h hs.2

namespace TableIndex

def empty : TableIndex := ⟨.empty,.empty,.empty,∅⟩

def isEmpty (b : TableIndex) : Bool :=
  b.eq.isEmpty && b.lower.isEmpty && b.upper.isEmpty && decide (b.scan = ∅)

/-- File an id under its conjunct, or on the scan list. -/
def file (b : TableIndex) (sid : ℕ) : Option AccessLeaf → TableIndex
  | some (.eq col value) => { b with eq := b.eq.put col value (insert sid) }
  | some (.lower col value strict) => { b with lower := b.lower.put col value (·.add sid strict) }
  | some (.upper col value strict) => { b with upper := b.upper.put col value (·.add sid strict) }
  | none => { b with scan := insert sid b.scan }

def unfile (b : TableIndex) (sid : ℕ) : Option AccessLeaf → TableIndex
  | some (.eq col value) => { b with eq := b.eq.take col value (·.erase sid) }
  | some (.lower col value _) => { b with lower := b.lower.take col value (·.remove sid) }
  | some (.upper col value _) => { b with upper := b.upper.take col value (·.remove sid) }
  | none => { b with scan := b.scan.erase sid }

/-- The ordered scan of one row: the bounds that qualify by their place in the order. -/
def boundHits (b : Postings ℕ Value Bound) (row : Row) (qualifies : Value → Value → Bool) : Finset ℕ :=
  unionAll (b.entries.map fun (col,bounds) =>
    match row.cells[col]? with
    | none => ∅
    | some cell =>
      if cell = .null then ∅
      else unionAll ((bounds.entries.filter fun e => qualifies e.1 cell).map fun e => e.2.reached e.1 cell))

/-- What one row reaches through the three kinds of postings. -/
def rowHits (b : TableIndex) (row : Row) : Finset ℕ :=
  unionAll (b.eq.entries.map fun (col,byVal) =>
    match row.cells[col]? with
    | none => ∅
    | some cell => (byVal.get? cell).getD ∅) ∪
  boundHits b.lower row (fun bound cell => bound.code ≤ cell.code) ∪
  boundHits b.upper row fun bound cell => cell.code ≤ bound.code

/-- An id stands under a conjunct, or on the scan list. -/
def Files (b : TableIndex) (sid : ℕ) : Option AccessLeaf → Prop
  | some (.eq col value) => sid ∈ b.eq.lookup col value
  | some (.lower col value strict) => sid ∈ (b.lower.lookup col value).ids strict
  | some (.upper col value strict) => sid ∈ (b.upper.lookup col value).ids strict
  | none => sid ∈ b.scan

variable {b : TableIndex} {sid sid' : ℕ}

lemma not_files_of_isEmpty (h : b.isEmpty = true) (leaf : Option AccessLeaf) : ¬b.Files sid leaf := by
  simp only [isEmpty,Bool.and_eq_true,decide_eq_true_eq] at h
  obtain ⟨⟨⟨heq,hlower⟩,hupper⟩,hscan⟩ := h
  rcases leaf with _ | ⟨_ | _ | _⟩
  · simp [Files,hscan]
  · simp [Files,Postings.lookup_of_isEmpty heq,Inhabited.default]
  · simp [Files,Postings.lookup_of_isEmpty hlower]
  · simp [Files,Postings.lookup_of_isEmpty hupper]

lemma not_files_empty (leaf : Option AccessLeaf) : ¬empty.Files sid leaf :=
  not_files_of_isEmpty (by decide) leaf

lemma files_file {leaf leaf' : Option AccessLeaf} : (b.file sid leaf).Files sid' leaf' ↔
    b.Files sid' leaf' ∨ sid' = sid ∧ AccessLeaf.Same leaf leaf' := by
  rcases leaf with _ | ⟨col,value⟩ | ⟨col,value,strict⟩ | ⟨col,value,strict⟩ <;>
    rcases leaf' with _ | ⟨col',value'⟩ | ⟨col',value',strict'⟩ | ⟨col',value',strict'⟩ <;>
    simp [file,Files,AccessLeaf.Same,or_comm,mem_put_eq,mem_put_ids]

/-- Taking an id out of the place it was filed under leaves the others, and nothing of it. -/
lemma files_unfile {leaf leaf' : Option AccessLeaf} (h : ∀ leaf', b.Files sid leaf' → AccessLeaf.Same leaf leaf') :
    (b.unfile sid leaf).Files sid' leaf' ↔ b.Files sid' leaf' ∧ sid' ≠ sid := by
  have hleaf := h leaf'
  rcases leaf with _ | ⟨col,value⟩ | ⟨col,value,strict⟩ | ⟨col,value,strict⟩ <;>
    rcases leaf' with _ | ⟨col',value'⟩ | ⟨col',value',strict'⟩ | ⟨col',value',strict'⟩ <;>
    simp only [unfile,Files,AccessLeaf.Same,mem_take_eq,mem_take_ids,Finset.mem_erase] at hleaf ⊢ <;>
    grind

lemma cell_of_getElem? {row : Row} {col : ℕ} {cell : Value} (h : row.cells[col]? = some cell) :
    row.cell col = cell := by
  rw [Row.cell,List.getD_eq_getElem?_getD,h,Option.getD_some]

lemma mem_eqHits {b : Postings ℕ Value (Finset ℕ)} {row : Row} :
    (sid ∈ unionAll (b.entries.map fun (col,byVal) =>
      match row.cells[col]? with
      | none => ∅
      | some cell => (byVal.get? cell).getD ∅)) ↔
    ∃ col cell, row.cells[col]? = some cell ∧ sid ∈ b.lookup col cell := by
  rw [mem_unionAll]
  constructor
  · rintro ⟨x,hx,hsid⟩
    obtain ⟨⟨col,byVal⟩,hmem,rfl⟩ := List.mem_map.mp hx
    cases hcell : row.cells[col]? with
    | none => simp [hcell] at hsid
    | some cell =>
      cases hval : byVal.get? cell with
      | none => simp [hcell,hval] at hsid
      | some y =>
        simp only [hcell,hval,Option.getD_some] at hsid
        exact ⟨col,cell,hcell,by rwa [Postings.lookup_of_mem hmem hval]⟩
  · rintro ⟨col,cell,hcell,hsid⟩
    have hne : b.lookup col cell ≠ default := Finset.ne_empty_of_mem hsid
    obtain ⟨col',byVal,v,hcol,hmem,-,-,hget⟩ := Postings.exists_of_lookup hne
    obtain rfl := eq_of_beq hcol
    refine ⟨_,List.mem_map.mpr ⟨_,hmem,rfl⟩,?_⟩
    simpa only [hcell,hget,Option.getD_some] using hsid

lemma mem_boundHits {b : Postings ℕ Value Bound} {row : Row} {qualifies : Value → Value → Bool}
    (hq : ∀ v v' cell, v.code = v'.code → qualifies v cell = qualifies v' cell) :
    sid ∈ boundHits b row qualifies ↔ ∃ col value strict, sid ∈ (b.lookup col value).ids strict ∧
      row.cell col ≠ .null ∧ qualifies value (row.cell col) = true ∧
      (strict = true → value.code ≠ (row.cell col).code) := by
  rw [boundHits,mem_unionAll]
  constructor
  · rintro ⟨x,hx,hsid⟩
    obtain ⟨⟨col,bounds⟩,hmem,rfl⟩ := List.mem_map.mp hx
    cases hcell : row.cells[col]? with
    | none => simp [hcell] at hsid
    | some cell =>
      simp only [hcell] at hsid
      split_ifs at hsid with hnull
      · cases hsid
      · obtain ⟨y,hy,hsid⟩ := mem_unionAll.mp hsid
        obtain ⟨⟨value,bound⟩,hbound,rfl⟩ := List.mem_map.mp hy
        obtain ⟨hbound,hqual⟩ := List.mem_filter.mp hbound
        obtain ⟨strict,hids,hstrict⟩ := Bound.mem_reached.mp hsid
        rw [← cell_of_getElem? hcell] at hnull hqual hstrict
        have hlookup := Postings.lookup_of_mem hmem (AssocMap.get?_of_mem hbound)
        exact ⟨col,value,strict,by rwa [hlookup],hnull,hqual,hstrict⟩
  · rintro ⟨col,value,strict,hids,hnull,hqual,hstrict⟩
    have hne : b.lookup col value ≠ default := fun h => by simp [h] at hids
    obtain ⟨col',bounds,v,hcol,hmem,hv,hbound,-⟩ := Postings.exists_of_lookup hne
    obtain rfl := eq_of_beq hcol
    have hcode := (Value.beq_iff_code v value).mp hv
    refine ⟨_,List.mem_map.mpr ⟨_,hmem,rfl⟩,?_⟩
    simp only [StandaloneIndex.cell_eq hnull,if_neg hnull]
    refine mem_unionAll.mpr ⟨_,List.mem_map.mpr ⟨_,List.mem_filter.mpr ⟨hbound,?_⟩,rfl⟩,?_⟩
    · rwa [hq v value _ hcode]
    · exact Bound.mem_reached.mpr ⟨strict,hids,fun hs => hcode ▸ hstrict hs⟩

/-- A row reaches exactly what stands under a conjunct that holds on it. -/
theorem mem_rowHits {row : Row} (hnull : ∀ col value, b.Files sid (some (.eq col value)) → value ≠ .null) :
    sid ∈ b.rowHits row ↔ ∃ leaf, b.Files sid (some leaf) ∧ leaf.Holds row := by
  rw [rowHits,Finset.mem_union,Finset.mem_union,mem_eqHits,
    mem_boundHits fun v v' cell hc => by rw [hc],mem_boundHits fun v v' cell hc => by rw [hc]]
  simp only [decide_eq_true_eq]
  constructor
  · rintro ((⟨col,cell,hcell,hsid⟩ | ⟨col,value,strict,hids,hcell,hle,hstrict⟩) |
      ⟨col,value,strict,hids,hcell,hle,hstrict⟩)
    · refine ⟨.eq col cell,hsid,?_⟩
      rw [AccessLeaf.Holds,cell_of_getElem? hcell]
      exact ⟨hnull col cell hsid,BEq.rfl⟩
    · exact ⟨.lower col value strict,hids,hcell,hle,hstrict⟩
    · exact ⟨.upper col value strict,hids,hcell,hle,hstrict⟩
  · rintro ⟨leaf,hfiles,hholds⟩
    cases leaf with
    | eq col value =>
      obtain ⟨hcell,heq⟩ := hholds
      refine .inl (.inl ⟨col,row.cell col,StandaloneIndex.cell_eq hcell,?_⟩)
      rwa [Postings.lookup_congr b.eq BEq.rfl heq]
    | lower col value strict =>
      obtain ⟨hcell,hle,hstrict⟩ := hholds
      exact .inl (.inr ⟨col,value,strict,hfiles,hcell,hle,hstrict⟩)
    | upper col value strict =>
      obtain ⟨hcell,hle,hstrict⟩ := hholds
      exact .inr ⟨col,value,strict,hfiles,hcell,hle,hstrict⟩

end TableIndex

/-- Where a shape was filed. -/
structure Placement where
  table : String
  leaf : Option AccessLeaf

/-- The shapes by their dense ids; a freed slot of `reverse` waits on `free`. -/
structure SubqueryShapeIndex where
  forward : AssocMap String ℕ
  reverse : List (Option String)
  free : List ℕ
  tables : AssocMap String TableIndex
  placed : AssocMap ℕ Placement

namespace SubqueryShapeIndex

def empty : SubqueryShapeIndex := ⟨.empty,[],[],.empty,.empty⟩

/-- Mint a dense id, or use a freed one again; `internU32` is the source's, in 32 bits. -/
def intern (idx : SubqueryShapeIndex) (shapeId : String) : ℕ × SubqueryShapeIndex :=
  match idx.free with
  | sid::free =>
    (sid,{ idx with
      free
      reverse := idx.reverse.set sid (some shapeId)
      forward := idx.forward.insert shapeId sid })
  | [] =>
    let sid := idx.reverse.length
    (sid,{ idx with
      reverse := idx.reverse ++ [some shapeId]
      forward := idx.forward.insert shapeId sid })

def internU32 (idx : SubqueryShapeIndex) (shapeId : String) : ℕ × SubqueryShapeIndex :=
  match idx.free with
  | sid::free =>
    (sid,{ idx with
      free
      reverse := idx.reverse.set sid (some shapeId)
      forward := idx.forward.insert shapeId sid })
  | [] =>
    let sid := idx.reverse.length % 2^32
    (sid,{ idx with
      reverse := idx.reverse ++ [some shapeId]
      forward := idx.forward.insert shapeId sid })

/-- Un-file a shape; the id is freed last. -/
def remove (idx : SubqueryShapeIndex) (shapeId : String) : SubqueryShapeIndex :=
  match idx.forward.get? shapeId with
  | none => idx
  | some sid =>
    match idx.placed.get? sid with
    | none => idx
    | some ⟨table,leaf⟩ =>
      { forward := idx.forward.erase shapeId
        reverse := idx.reverse.set sid none
        free := sid::idx.free
        tables :=
          match idx.tables.get? table with
          | none => idx.tables
          | some bucket =>
            if (bucket.unfile sid leaf).isEmpty then idx.tables.erase table
            else idx.tables.insert table (bucket.unfile sid leaf)
        placed := idx.placed.erase sid }

def insert (idx : SubqueryShapeIndex) (shapeId table : String) (pred : CompiledPredicate) :
    SubqueryShapeIndex :=
  let (sid,idx) := (idx.remove shapeId).intern shapeId
  let leaf := pred.accessLeaf
  { idx with
    tables := idx.tables.modify table .empty fun bucket => bucket.file sid leaf
    placed := idx.placed.insert sid ⟨table,leaf⟩ }

def insertU32 (idx : SubqueryShapeIndex) (shapeId table : String) (pred : CompiledPredicate) :
    SubqueryShapeIndex :=
  let (sid,idx) := (idx.remove shapeId).internU32 shapeId
  let leaf := pred.accessLeaf
  { idx with
    tables := idx.tables.modify table .empty fun bucket => bucket.file sid leaf
    placed := idx.placed.insert sid ⟨table,leaf⟩ }

/-- The shapes of the table whose conjunct a row of the delta satisfies, with those that have none. -/
def candidates (idx : SubqueryShapeIndex) (table : String) (delta : Delta) : List String :=
  match idx.tables.get? table with
  | none => []
  | some bucket =>
    ((bucket.scan ∪ unionAll (delta.map fun t => bucket.rowHits t.1)).sort (· ≤ ·)).filterMap
      fun sid => idx.reverse[sid]?.join

/-- The postings of a table, none if it has no bucket. -/
def bucket (idx : SubqueryShapeIndex) (table : String) : TableIndex := (idx.tables.get? table).getD .empty

/-- The index holds the live shapes, each under one id and in one place, and nothing else. -/
structure Filed (idx : SubqueryShapeIndex) (live : String → Option (String × CompiledPredicate)) : Prop where
  forward : ∀ id, (idx.forward.get? id).isSome = (live id).isSome
  names : ∀ id sid, idx.forward.get? id = some sid ↔ idx.reverse[sid]? = some (some id)
  free : ∀ sid, sid ∈ idx.free ↔ idx.reverse[sid]? = some none
  free_nodup : idx.free.Nodup
  placed : ∀ id sid table pred, idx.forward.get? id = some sid → live id = some (table,pred) →
    idx.placed.get? sid = some ⟨table,pred.accessLeaf⟩
  files : ∀ table sid leaf, (idx.bucket table).Files sid leaf ↔ ∃ id pred,
    idx.forward.get? id = some sid ∧ live id = some (table,pred) ∧ AccessLeaf.Same pred.accessLeaf leaf

variable {idx : SubqueryShapeIndex} {live : String → Option (String × CompiledPredicate)}

lemma filed_empty : Filed empty fun _ => none where
  forward := by simp [empty]
  names := by simp [empty]
  free := by simp [empty]
  free_nodup := List.nodup_nil
  placed := by simp [empty]
  files := by
    intro table sid leaf
    have hno := @TableIndex.not_files_empty sid leaf
    simpa [bucket,empty] using hno

/-- One id stands for one shape. -/
lemma Filed.id_inj (h : idx.Filed live) {id id' : String} {sid : ℕ} (hid : idx.forward.get? id = some sid)
    (hid' : idx.forward.get? id' = some sid) : id = id' := by
  have hname := (h.names id sid).mp hid
  rw [(h.names id' sid).mp hid'] at hname
  exact (Option.some.inj (Option.some.inj hname)).symm

/-- The bucket of a table, after one of its ids is taken out; a bucket without postings is removed. -/
lemma files_unfiled (tables : AssocMap String TableIndex) (table table' : String) (sid : ℕ)
    (leaf : Option AccessLeaf) (hleaf : ∀ leaf', ((tables.get? table).getD .empty).Files sid leaf' →
      AccessLeaf.Same leaf leaf') (sid' : ℕ) (leaf' : Option AccessLeaf) :
    (((match tables.get? table with
      | none => tables
      | some bucket =>
        if (bucket.unfile sid leaf).isEmpty then tables.erase table
        else tables.insert table (bucket.unfile sid leaf)).get? table').getD .empty).Files sid' leaf' ↔
      ((tables.get? table').getD .empty).Files sid' leaf' ∧ ¬(table' = table ∧ sid' = sid) := by
  cases htable : tables.get? table with
  | none =>
    simp only [iff_self_and]
    rintro hfiles ⟨rfl,rfl⟩
    rw [htable] at hfiles
    exact TableIndex.not_files_empty leaf' hfiles
  | some b =>
    rw [htable] at hleaf
    have hunfile := @TableIndex.files_unfile b sid sid' leaf leaf' hleaf
    dsimp only
    by_cases ht : table = table'
    · subst ht
      simp only [htable,Option.getD_some,true_and]
      rw [← hunfile]
      split_ifs with hempty
      · rw [AssocMap.get?_erase_self,Option.getD_none]
        exact iff_of_false (TableIndex.not_files_empty leaf') (TableIndex.not_files_of_isEmpty hempty leaf')
      · rw [AssocMap.get?_insert_self,Option.getD_some]
    · have hbeq : ¬(table == table') = true := by simpa using ht
      rw [and_iff_left fun hand => ht hand.1.symm]
      split_ifs
      · rw [AssocMap.get?_erase,if_neg hbeq]
      · rw [AssocMap.get?_insert,if_neg hbeq]

/-- A shape that goes takes every posting of its id with it. -/
theorem Filed.remove (h : idx.Filed live) (shapeId : String) :
    (idx.remove shapeId).Filed fun id => if shapeId = id then none else live id := by
  have hsome := h.forward shapeId
  rw [SubqueryShapeIndex.remove]
  cases hforward : idx.forward.get? shapeId with
  | none =>
    rw [hforward] at hsome
    have hlive : live shapeId = none := by simpa using hsome.symm
    have hsame : (fun id => if shapeId = id then none else live id) = live := by
      funext id
      split_ifs with hid
      · rw [← hid,hlive]
      · rfl
    rw [hsame]
    exact h
  | some sid =>
    rw [hforward] at hsome
    obtain ⟨⟨table,pred⟩,hlive⟩ := Option.isSome_iff_exists.mp hsome.symm
    have hplaced := h.placed shapeId sid table pred hforward hlive
    have hname := (h.names shapeId sid).mp hforward
    have hlt : sid < idx.reverse.length := (List.getElem?_eq_some_iff.mp hname).1
    simp only [hplaced]
    have herase : ∀ id, (idx.forward.erase shapeId).get? id =
        if shapeId = id then none else idx.forward.get? id := fun id => by
      rw [AssocMap.get?_erase]
      simp only [beq_iff_eq]
    refine ⟨fun id => ?_,fun id sid' => ?_,fun sid' => ?_,?_,fun id sid' table' pred' => ?_,
      fun table' sid' leaf => ?_⟩
    · rw [herase]
      split_ifs
      · rfl
      · exact h.forward id
    · rw [herase,List.getElem?_set]
      by_cases hid : shapeId = id
      · subst hid
        rw [if_pos rfl]
        refine iff_of_false (by simp) fun hset => ?_
        split_ifs at hset with hsid
        · exact absurd hset (by simp)
        · have hother := (h.names shapeId sid').mpr hset
          rw [hforward] at hother
          exact hsid (Option.some.inj hother)
      · rw [if_neg hid,h.names]
        split_ifs with hsid
        · subst hsid
          refine iff_of_false (fun hother => hid ?_) (by simp)
          rw [hname] at hother
          exact Option.some.inj (Option.some.inj hother)
        · rfl
    · rw [List.mem_cons,h.free,List.getElem?_set]
      split_ifs with hsid
      · simp [hsid]
      · simp [Ne.symm hsid]
    · refine List.nodup_cons.mpr ⟨fun hfree => ?_,h.free_nodup⟩
      rw [h.free,hname] at hfree
      cases hfree
    · rw [herase]
      intro hforward' hlive'
      split_ifs at hforward' hlive' with hid
      have hsid : ¬(sid == sid') = true := by
        rw [beq_iff_eq]
        rintro rfl
        exact hid (h.id_inj hforward hforward')
      rw [AssocMap.get?_erase,if_neg hsid]
      exact h.placed id sid' table' pred' hforward' hlive'
    · have hleaf : ∀ leaf', ((idx.tables.get? table).getD .empty).Files sid leaf' →
          AccessLeaf.Same pred.accessLeaf leaf' := fun leaf' hfiles => by
        obtain ⟨id,pred',hid,hlive',hsame⟩ := (h.files table sid leaf').mp hfiles
        obtain rfl := h.id_inj hforward hid
        rw [hlive] at hlive'
        obtain ⟨-,rfl⟩ := Prod.mk.inj (Option.some.inj hlive')
        exact hsame
      rw [bucket,files_unfiled idx.tables table table' sid _ hleaf]
      change (idx.bucket table').Files sid' leaf ∧ _ ↔ _
      rw [h.files]
      constructor
      · rintro ⟨⟨id,pred',hid,hlive',hsame⟩,hother⟩
        have hne : shapeId ≠ id := by
          rintro rfl
          rw [hforward] at hid
          rw [hlive] at hlive'
          exact hother ⟨(Prod.mk.inj (Option.some.inj hlive')).1.symm,(Option.some.inj hid).symm⟩
        exact ⟨id,pred',by rw [herase,if_neg hne,hid],by rw [if_neg hne,hlive'],hsame⟩
      · rintro ⟨id,pred',hid,hlive',hsame⟩
        rw [herase] at hid
        split_ifs at hid hlive' with hne
        refine ⟨⟨id,pred',hid,hlive',hsame⟩,?_⟩
        rintro ⟨-,rfl⟩
        exact hne (h.id_inj hforward hid)

/-- An id that is minted stood for nothing, and stands for the shape from then on. -/
lemma Filed.intern (h : idx.Filed live) {shapeId : String} {sid : ℕ} {idx' : SubqueryShapeIndex}
    (hi : idx.intern shapeId = (sid,idx')) :
    (∀ id, idx.forward.get? id ≠ some sid) ∧ idx'.forward = idx.forward.insert shapeId sid ∧
    (∀ sid', idx'.reverse[sid']? = if sid = sid' then some (some shapeId) else idx.reverse[sid']?) ∧
    (∀ sid', sid' ∈ idx'.free ↔ sid' ∈ idx.free ∧ sid ≠ sid') ∧ idx'.free.Nodup ∧
    idx'.tables = idx.tables ∧ idx'.placed = idx.placed := by
  have hfree := h.free
  have hnodup := h.free_nodup
  rw [SubqueryShapeIndex.intern] at hi
  cases hf : idx.free with
  | nil =>
    rw [hf] at hi
    obtain ⟨rfl,rfl⟩ := Prod.mk.inj hi
    refine ⟨fun id hid => ?_,rfl,fun sid => ?_,by simp,List.nodup_nil,rfl,rfl⟩
    · have hname := (h.names id _).mp hid
      simp at hname
    · rw [List.getElem?_append]
      split_ifs with hlt heq heq
      · omega
      · rfl
      · simp [heq]
      · rw [List.getElem?_eq_none_iff.mpr (not_lt.mp hlt)]
        exact List.getElem?_eq_none_iff.mpr (by simp; omega)
  | cons sid free =>
    rw [hf] at hi hfree hnodup
    obtain ⟨rfl,rfl⟩ := Prod.mk.inj hi
    obtain ⟨hnot,hnodup⟩ := List.nodup_cons.mp hnodup
    have hslot := (hfree sid).mp List.mem_cons_self
    refine ⟨fun id hid => ?_,rfl,fun sid' => ?_,fun sid' => ?_,hnodup,rfl,rfl⟩
    · rw [(h.names id sid).mp hid] at hslot
      cases hslot
    · rw [List.getElem?_set]
      have hlt := (List.getElem?_eq_some_iff.mp hslot).1
      split_ifs
      · rfl
      · rfl
    · rw [List.mem_cons]
      refine ⟨fun hmem => ⟨.inr hmem,fun heq => hnot (heq ▸ hmem)⟩,?_⟩
      rintro ⟨rfl | hmem,hne⟩
      · exact absurd rfl hne
      · exact hmem

/-- A shape that is filed again stands under its new conjunct only. -/
theorem Filed.insert (h : idx.Filed live) (shapeId table : String) (pred : CompiledPredicate) :
    (idx.insert shapeId table pred).Filed fun id => if shapeId = id then some (table,pred) else live id := by
  have hout := h.remove shapeId
  rw [SubqueryShapeIndex.insert]
  generalize idx.remove shapeId = idx at hout ⊢
  rcases hi : idx.intern shapeId with ⟨sid,idx'⟩
  obtain ⟨hnew,hforward,hreverse,hfree,hnodup,htables,hplaced⟩ := hout.intern hi
  have hget : ∀ id, idx'.forward.get? id = if shapeId = id then some sid else idx.forward.get? id :=
    fun id => by rw [hforward,AssocMap.get?_insert_eq]
  have hnone : idx.forward.get? shapeId = none := by
    have hsome := hout.forward shapeId
    simpa using hsome
  refine ⟨fun id => ?_,fun id sid' => ?_,fun sid' => ?_,hnodup,fun id sid' table' pred' => ?_,
    fun table' sid' leaf => ?_⟩
  · have hold := hout.forward id
    dsimp only
    rw [hget]
    split_ifs at hold ⊢ with hid
    · rfl
    · exact hold
  · dsimp only
    rw [hget,hreverse]
    split_ifs with hid hsid hsid
    · simp [hsid,hid]
    · refine iff_of_false (by simpa using hsid) fun hslot => ?_
      rw [← hid] at hslot
      rw [(hout.names shapeId sid').mpr hslot] at hnone
      cases hnone
    · refine iff_of_false (fun hid' => hnew id ?_) (by simpa using hid)
      rw [hid',hsid]
    · exact hout.names id sid'
  · dsimp only
    rw [hfree,hreverse,hout.free]
    split_ifs with hsid <;> simp [hsid]
  · dsimp only
    rw [hget,hplaced,AssocMap.get?_insert_eq]
    intro hid hlive
    split_ifs at hid hlive with heq
    · obtain ⟨rfl,rfl⟩ := Prod.mk.inj (Option.some.inj hlive)
      rw [if_pos (Option.some.inj hid)]
    · have hne : sid ≠ sid' := by
        rintro rfl
        exact hnew id hid
      rw [if_neg hne]
      exact hout.placed id sid' table' pred' hid (by rw [if_neg heq,hlive])
  · have hbucket : (((idx'.tables.modify table .empty fun bucket => bucket.file sid pred.accessLeaf).get?
        table').getD .empty).Files sid' leaf ↔ (idx.bucket table').Files sid' leaf ∨
          table = table' ∧ sid' = sid ∧ AccessLeaf.Same pred.accessLeaf leaf := by
      rw [AssocMap.get?_modify,htables]
      simp only [beq_iff_eq]
      split_ifs with ht
      · subst ht
        rw [Option.getD_some,TableIndex.files_file,eq_self,true_and]
        rfl
      · simp only [ht,false_and,or_false]
        rfl
    rw [bucket,hbucket,hout.files]
    constructor
    · rintro (⟨id,pred',hid,hlive,hsame⟩ | ⟨rfl,rfl,hsame⟩)
      · split_ifs at hlive with hne
        exact ⟨id,pred',by rw [hget,if_neg hne,hid],by rw [if_neg hne,hlive],hsame⟩
      · exact ⟨shapeId,pred,by rw [hget,if_pos rfl],if_pos rfl,hsame⟩
    · rintro ⟨id,pred',hid,hlive,hsame⟩
      rw [hget] at hid
      split_ifs at hid hlive with hne
      · obtain ⟨rfl,rfl⟩ := Prod.mk.inj (Option.some.inj hlive)
        exact .inr ⟨rfl,(Option.some.inj hid).symm,hsame⟩
      · exact .inl ⟨id,pred',hid,by rw [if_neg hne,hlive],hsame⟩

/-- What the registry does to the index. -/
inductive Op where
  | insert (shapeId table : String) (pred : CompiledPredicate)
  | remove (shapeId : String)

def apply (idx : SubqueryShapeIndex) : Op → SubqueryShapeIndex
  | .insert shapeId table pred => idx.insert shapeId table pred
  | .remove shapeId => idx.remove shapeId

def run (ops : List Op) : SubqueryShapeIndex := ops.foldl apply empty

/-- The live shapes after one step: the last insert of an id counts, until it is removed. -/
def step (live : String → Option (String × CompiledPredicate)) :
    Op → String → Option (String × CompiledPredicate)
  | .insert shapeId table pred => fun id => if shapeId = id then some (table,pred) else live id
  | .remove shapeId => fun id => if shapeId = id then none else live id

def liveAfter (ops : List Op) : String → Option (String × CompiledPredicate) :=
  ops.foldl step fun _ => none

lemma Filed.apply (h : idx.Filed live) (op : Op) : (idx.apply op).Filed (step live op) := by
  cases op with
  | insert shapeId table pred => exact h.insert shapeId table pred
  | remove shapeId => exact h.remove shapeId

theorem filed_run (ops : List Op) : (run ops).Filed (liveAfter ops) := by
  have hrun : ∀ (ops : List Op) idx live, Filed idx live →
      (ops.foldl SubqueryShapeIndex.apply idx).Filed (ops.foldl step live) := by
    intro ops
    induction ops with
    | nil => exact fun idx live h => h
    | cons op ops ih => exact fun idx live h => ih _ _ (h.apply op)
  exact hrun ops empty _ filed_empty

def applyU32 (idx : SubqueryShapeIndex) : Op → SubqueryShapeIndex
  | .insert shapeId table pred => idx.insertU32 shapeId table pred
  | .remove shapeId => idx.remove shapeId

def runU32 (ops : List Op) : SubqueryShapeIndex := ops.foldl applyU32 empty

/-- With no id to use again every slot has a live shape. -/
lemma Filed.length_le (h : idx.Filed live) (hfree : idx.free = []) :
    (idx.reverse.length : ℕ∞) ≤ Set.encard {id | (live id).isSome} := by
  have hsome : ∀ x ∈ idx.reverse, ∃ id, x = some id := by
    intro x hx
    obtain ⟨sid,hsid⟩ := List.mem_iff_getElem?.mp hx
    cases x with
    | none =>
      have hmem := (h.free sid).mpr hsid
      rw [hfree] at hmem
      cases hmem
    | some id => exact ⟨id,rfl⟩
  have hnames : idx.reverse.reduceOption.map some = idx.reverse := by
    generalize idx.reverse = names at hsome
    induction names with
    | nil => rfl
    | cons x names ih =>
      obtain ⟨⟨id,rfl⟩,hnames⟩ := List.forall_mem_cons.mp hsome
      rw [List.reduceOption_cons_of_some,List.map_cons,ih hnames]
  have hslot : ∀ sid id, idx.reverse.reduceOption[sid]? = some id ↔ idx.forward.get? id = some sid := by
    intro sid id
    have hmap : (idx.reverse.reduceOption.map some)[sid]? = _ := List.getElem?_map
    rw [hnames] at hmap
    rw [h.names,hmap]
    cases idx.reverse.reduceOption[sid]? <;> simp
  have hnodup : idx.reverse.reduceOption.Nodup := by
    rw [List.nodup_iff_getElem?_ne_getElem?]
    intro i j hij hj heq
    have hid := List.getElem?_eq_getElem hj
    have hi := (hslot i _).mp (heq.trans hid)
    rw [(hslot j _).mp hid] at hi
    exact hij.ne (Option.some.inj hi).symm
  have hsub : (idx.reverse.reduceOption.toFinset : Set String) ⊆ {id | (live id).isSome} := by
    intro id hid
    obtain ⟨sid,hsid⟩ := List.mem_iff_getElem?.mp (List.mem_toFinset.mp hid)
    have hforward := h.forward id
    rw [(hslot sid id).mp hsid] at hforward
    exact hforward.symm
  have hcard := Set.encard_le_encard hsub
  rw [Set.encard_coe_eq_coe_finsetCard,List.toFinset_card_of_nodup hnodup] at hcard
  have hlength : idx.reverse.reduceOption.length = idx.reverse.length := by
    rw [← List.length_map some,hnames]
  rwa [hlength] at hcard

/-- As long as at most 2^32 shapes are live at once, the ids fit into 32 bits. -/
theorem runU32_eq (ops : List Op)
    (hlive : ∀ pre, pre <+: ops → Set.encard {id | (liveAfter pre id).isSome} ≤ 2^32) :
    runU32 ops = run ops := by
  induction ops using List.reverseRecOn with
  | nil => rfl
  | append_singleton ops op ih =>
    have hops := ih fun pre hpre => hlive pre (hpre.trans (List.prefix_append _ _))
    rw [runU32,run,List.foldl_append,List.foldl_append]
    change (runU32 ops).applyU32 op = (run ops).apply op
    rw [hops]
    cases op with
    | remove shapeId => rfl
    | insert shapeId table pred =>
      have hout := (filed_run ops).remove shapeId
      have hbound : Set.encard {id | (if shapeId = id then none else liveAfter ops id).isSome} + 1 ≤ 2^32 := by
        rw [← Set.encard_insert_of_notMem (a := shapeId) (by simp)]
        refine le_of_eq_of_le (congrArg Set.encard ?_) (hlive _ (List.prefix_refl _))
        ext id
        have happend : liveAfter (ops ++ [.insert shapeId table pred]) =
            step (liveAfter ops) (.insert shapeId table pred) := by
          rw [liveAfter,List.foldl_append]
          rfl
        rw [Set.mem_insert_iff,Set.mem_ofPred_eq,Set.mem_ofPred_eq,happend,step]
        by_cases hid : shapeId = id
        · simp [hid]
        · simp [hid,Ne.symm hid]
      have hintern : ((run ops).remove shapeId).internU32 shapeId = ((run ops).remove shapeId).intern shapeId := by
        rw [internU32,intern]
        cases hfree : ((run ops).remove shapeId).free with
        | cons sid free => rfl
        | nil =>
          have hle := (add_le_add_left (hout.length_le hfree) 1).trans hbound
          have hlt : ((run ops).remove shapeId).reverse.length < 2^32 := by exact_mod_cast hle
          simp only [Nat.mod_eq_of_lt hlt]
      rw [applyU32,apply,insertU32,insert,hintern]

/-- A live shape was inserted at some point, as it is. -/
lemma insert_mem_of_live {ops : List Op} {id table : String} {pred : CompiledPredicate}
    (h : liveAfter ops id = some (table,pred)) : .insert id table pred ∈ ops := by
  induction ops using List.reverseRecOn with
  | nil => cases h
  | append_singleton ops op ih =>
    rw [liveAfter,List.foldl_append] at h
    change step (liveAfter ops) op id = some (table,pred) at h
    rw [List.mem_append]
    cases op with
    | insert shapeId table' pred' =>
      simp only [step] at h
      split_ifs at h with hid
      · obtain ⟨rfl,rfl⟩ := Prod.mk.inj (Option.some.inj h)
        exact .inr (List.mem_singleton.mpr (by rw [hid]))
      · exact .inl (ih h)
    | remove shapeId =>
      simp only [step] at h
      split_ifs at h
      exact .inl (ih h)

/-- The candidates are the shapes on the scan list, and those with a conjunct that holds on a row. -/
lemma Filed.mem_candidates (h : idx.Filed live)
    (hnull : ∀ id table pred, live id = some (table,pred) → ∀ l ∈ pred.accessLeaf, l.value ≠ .null)
    (table : String) (delta : Delta) (id : String) : id ∈ idx.candidates table delta ↔
      ∃ pred, live id = some (table,pred) ∧
        (pred.accessLeaf = none ∨ ∃ l ∈ pred.accessLeaf, ∃ t ∈ delta, l.Holds t.1) := by
  have hname : ∀ sid, idx.reverse[sid]?.join = some id ↔ idx.forward.get? id = some sid := fun sid => by
    rw [h.names,Option.join_eq_some_iff]
  have hrow : ∀ row sid, sid ∈ (idx.bucket table).rowHits row ↔
      ∃ leaf, (idx.bucket table).Files sid (some leaf) ∧ leaf.Holds row := fun row sid => by
    refine TableIndex.mem_rowHits fun col value hfiles => ?_
    obtain ⟨id,pred,hid,hlive,hsame⟩ := (h.files table sid _).mp hfiles
    cases hleaf : pred.accessLeaf with
    | none =>
      rw [hleaf] at hsame
      cases hsame
    | some l =>
      rw [hleaf] at hsame
      exact hsame.value_ne_null (hnull id table pred hlive l hleaf)
  have hmem : id ∈ idx.candidates table delta ↔ ∃ sid, ((idx.bucket table).Files sid none ∨
      ∃ t ∈ delta, ∃ leaf, (idx.bucket table).Files sid (some leaf) ∧ leaf.Holds t.1) ∧
        idx.forward.get? id = some sid := by
    simp only [← hrow]
    rw [candidates,bucket]
    cases htable : idx.tables.get? table with
    | none =>
      refine iff_of_false (by simp) ?_
      rintro ⟨sid,hfiles | ⟨t,-,hhit⟩,-⟩
      · exact TableIndex.not_files_empty none hfiles
      · simp [TableIndex.rowHits,TableIndex.boundHits,TableIndex.empty,AssocMap.empty] at hhit
    | some b =>
      simp only [Option.getD_some,List.mem_filterMap,Finset.mem_sort,Finset.mem_union,mem_unionAll,
        List.mem_map,exists_exists_and_eq_and,hname,TableIndex.Files]
  rw [hmem]
  constructor
  · rintro ⟨sid,hfiles | ⟨t,ht,leaf,hfiles,hholds⟩,hid⟩
    · obtain ⟨id',pred,hid',hlive,hsame⟩ := (h.files table sid none).mp hfiles
      obtain rfl := h.id_inj hid hid'
      refine ⟨pred,hlive,.inl ?_⟩
      cases hleaf : pred.accessLeaf with
      | none => rfl
      | some l =>
        rw [hleaf] at hsame
        cases l <;> cases hsame
    · obtain ⟨id',pred,hid',hlive,hsame⟩ := (h.files table sid _).mp hfiles
      obtain rfl := h.id_inj hid hid'
      refine ⟨pred,hlive,.inr ?_⟩
      cases hleaf : pred.accessLeaf with
      | none =>
        rw [hleaf] at hsame
        cases hsame
      | some l =>
        rw [hleaf] at hsame
        exact ⟨l,rfl,t,ht,hsame.holds hholds⟩
  · rintro ⟨pred,hlive,hpred⟩
    have hsome := h.forward id
    rw [hlive] at hsome
    obtain ⟨sid,hid⟩ := Option.isSome_iff_exists.mp hsome
    have hfiles := (h.files table sid pred.accessLeaf).mpr
      ⟨id,pred,hid,hlive,StandaloneIndex.same_refl _⟩
    refine ⟨sid,?_,hid⟩
    rcases hpred with hnone | ⟨l,hl,t,ht,hholds⟩
    · exact .inl (hnone ▸ hfiles)
    · exact .inr ⟨t,ht,l,Option.mem_def.mp hl ▸ hfiles,hholds⟩

lemma Filed.nodup_candidates (h : idx.Filed live) (table : String) (delta : Delta) :
    (idx.candidates table delta).Nodup := by
  rw [candidates]
  cases idx.tables.get? table with
  | none => exact List.nodup_nil
  | some bucket =>
    refine List.Nodup.filterMap (fun sid sid' id hid hid' => ?_) (Finset.sort_nodup _ _)
    have hname := (h.names id sid).mpr (Option.join_eq_some_iff.mp hid)
    rw [(h.names id sid').mpr (Option.join_eq_some_iff.mp hid')] at hname
    exact (Option.some.inj hname).symm

/-- Whatever ids were used again on the way, a delta leads to the live shapes of its table that have no
conjunct or one that is TRUE on a row of it, each of them once. -/
theorem candidates_exact {parseF64 : String → Option OrderedFloat} {schema : String → TableSchema}
    {ops : List Op} (hops : ∀ id table pred, .insert id table pred ∈ ops → ∃ collector where_,
      CompiledPredicate.compileOptWith parseF64 (schema table) collector where_ = .ok pred)
    {table : String} {delta : Delta} (hdelta : ∀ t ∈ delta, ∃ j, (schema table).rowFromJson j = .ok t.1) :
    ((run ops).candidates table delta).Nodup ∧ ∀ id, id ∈ (run ops).candidates table delta ↔
      ∃ pred, liveAfter ops id = some (table,pred) ∧ (pred.accessLeaf = none ∨
        ∃ l ∈ pred.accessLeaf, ∃ t ∈ delta, l.comparison.matchesRow t.1 = true) := by
  have hfiled := filed_run ops
  have htyped : ∀ id table pred, liveAfter ops id = some (table,pred) →
      ∀ l ∈ pred.accessLeaf, l.Typed (schema table) := fun id table pred hlive => by
    obtain ⟨collector,where_,hpred⟩ := hops id table pred (insert_mem_of_live hlive)
    exact CompiledPredicate.accessLeaf_typed hpred
  refine ⟨hfiled.nodup_candidates table delta,fun id => ?_⟩
  rw [hfiled.mem_candidates fun id table pred hlive l hl => (htyped id table pred hlive l hl).value_ne_null]
  refine exists_congr fun pred => and_congr_right fun hlive => or_congr_right ?_
  refine exists_congr fun l => and_congr_right fun hl => exists_congr fun t => and_congr_right fun ht => ?_
  obtain ⟨j,hj⟩ := hdelta t ht
  exact (htyped id table pred hlive l hl).holds_iff hj

/-- Two shapes, of which the first goes and a third takes over its id. -/
def sampleOps : List Op :=
  [.insert "a" "issues" (.cmp 1 .eq (.int 3)),.insert "b" "issues" (.cmp 1 .gt (.int 5)),.remove "a",
    .insert "c" "issues" (.cmp 0 .lte (.int 1))]

/-- The id of the first shape is that of the third, and no posting of the first is left. -/
theorem sample_candidates_exact :
    (run sampleOps).forward.get? "c" = some 0 ∧
    "a" ∉ (run sampleOps).candidates "issues" [(⟨[.int 1,.int 3]⟩,1)] ∧
    "c" ∈ (run sampleOps).candidates "issues" [(⟨[.int 1,.int 3]⟩,1)] := by
  have hcompiles : ∀ id table pred, .insert id table pred ∈ sampleOps → ∃ collector where_,
      CompiledPredicate.compileOptWith (fun _ => none) TableSchema.sample collector where_ = .ok pred := by
    intro id table pred hop
    simp only [sampleOps,List.mem_cons,Op.insert.injEq,List.not_mem_nil,or_false,reduceCtorEq,false_or] at hop
    rcases hop with ⟨-,-,rfl⟩ | ⟨-,-,rfl⟩ | ⟨-,-,rfl⟩
    · exact ⟨fun _ _ _ => .error "",some (.leaf "level" .eq ⟨.int 3,rfl⟩),rfl⟩
    · exact ⟨fun _ _ _ => .error "",some (.leaf "level" .gt ⟨.int 5,rfl⟩),rfl⟩
    · exact ⟨fun _ _ _ => .error "",some (.leaf "id" .lte ⟨.int 1,rfl⟩),rfl⟩
  have hrows : ∀ t ∈ ([(⟨[.int 1,.int 3]⟩,1)] : Delta), ∃ j, TableSchema.sample.rowFromJson j = .ok t.1 := by
    intro t ht
    obtain rfl := List.mem_singleton.mp ht
    exact ⟨.object [("id",.int 1),("level",.int 3)],by decide⟩
  have hmem := (@candidates_exact _ (fun _ => TableSchema.sample) _ hcompiles "issues" _ hrows).2
  refine ⟨by decide,?_,?_⟩
  · rw [hmem]
    rintro ⟨pred,hlive,-⟩
    have hgone : liveAfter sampleOps "a" = none := rfl
    rw [hgone] at hlive
    cases hlive
  · rw [hmem]
    exact ⟨_,rfl,.inr ⟨_,rfl,_,List.mem_singleton.mpr rfl,by decide⟩⟩

end SubqueryShapeIndex
end ElectricCircuits
