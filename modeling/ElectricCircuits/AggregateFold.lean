import ElectricCircuits.Lib.Tally
import ElectricCircuits.StreamFold

/-! The running aggregate against the one that SQL computes: over the rows that match after a seed and a
sequence of inserts, updates and deletes. -/
namespace RowChange
open ElectricCircuits

/-- What the change is as a delta. -/
def delta (c : RowChange Row) : Delta := imageDelta c.old c.new

/-- What the change does to the rows of a table, in which a row may stand more than once. -/
def applyRows (c : RowChange Row) (rows : List Row) : List Row :=
  c.new.toList ++ (match c.old with
    | some old => rows.eraseP fun row => decide (row = old)
    | none => rows)

end RowChange

namespace ElectricCircuits

lemma perm_eraseP {rows : List Row} {old : Row} (h : old ∈ rows) :
    rows.Perm (old::rows.eraseP fun row => decide (row = old)) := by
  obtain ⟨row,before,after,-,hrow,hsplit,herase⟩ :=
    List.exists_of_eraseP (p := fun row => decide (row = old)) h (decide_eq_true rfl)
  rw [herase,hsplit,of_decide_eq_true hrow]
  exact List.perm_middle

/-- The rows of the table after some changes. -/
def rowsAfter (rows : List Row) (cs : List (RowChange Row)) : List Row :=
  cs.foldl (fun rows c => c.applyRows rows) rows

/-- An update or a delete is of a row that the table has. -/
def ValidChanges (rows : List Row) : List (RowChange Row) → Prop
  | [] => True
  | c::cs => (∀ old ∈ c.old, old ∈ rows) ∧ ValidChanges (c.applyRows rows) cs

/-- The cell that an aggregate reads of a row, unless it is NULL. -/
def aggCell (col : Option ℕ) (row : Row) : Option Value :=
  col.bind fun ci => if row.cell ci = .null then none else some (row.cell ci)

/-- The cells that an aggregate over some rows takes in. -/
def aggCells (col : Option ℕ) (rows : List Row) : List Value := rows.filterMap (aggCell col)

/-- The whole number that a cell of an integer or a boolean column counts for. -/
def Value.whole : Value → Option ℤ
  | .int i => some i
  | .bool b => some (if b then 1 else 0)
  | _ => none

/-- The exact sum of whole cells. -/
def wholeSum (vs : List Value) : ℤ := (vs.map fun v => v.whole.getD 0).sum

/-- A cell of a numeric column as a double. -/
def Value.double : Value → Float
  | .float f => f.toFloat
  | v => Float.ofInt (v.whole.getD 0)

/-- The doubles of the cells, added up in some order. -/
def DoubleSum (vs : List Value) (f : Float) : Prop :=
  ∃ order : List Value, order.Perm vs ∧ f = (order.map Value.double).foldl (· + ·) 0

/-- An extreme of the cells; cells in the same place of the order are one. -/
def Extreme (le : Value → Value → Prop) (vs : List Value) (k : Value) : Prop :=
  (∃ v ∈ vs, v.eqv k) ∧ ∀ v ∈ vs, le k v

/-- The aggregate of some rows in SQL: a NULL cell counts for `COUNT(*)` only, and over no cell every
function but the counts is NULL. Whole cells are added up exactly, other numbers as doubles. -/
def SqlAggregate (func : AggFn) (col : Option ℕ) (rows : List Row) (j : Json) : Prop :=
  let vs := aggCells col rows
  match func with
  | .count => j = .int (if col.isSome then vs.length else rows.length)
  | .sum =>
    if vs = [] then j = .null
    else if ∀ v ∈ vs, v.whole.isSome then j = (Value.int (wholeSum vs)).toJson
    else ∃ f, DoubleSum vs f ∧ j = .ofFloat (.ofFloat f)
  | .avg =>
    if vs = [] then j = .null
    else if ∀ v ∈ vs, v.whole.isSome then j = .ofFloat (.ofFloat (Float.ofInt (wholeSum vs) / Float.ofInt vs.length))
    else ∃ f, DoubleSum vs f ∧ j = .ofFloat (.ofFloat (f / Float.ofInt vs.length))
  | .min =>
    if vs = [] then j = .null
    else ∃ k, Extreme (fun a b => a.code ≤ b.code) vs k ∧ j = k.toJson
  | .max =>
    if vs = [] then j = .null
    else ∃ k, Extreme (fun a b => b.code ≤ a.code) vs k ∧ j = k.toJson

/-- The aggregated column has no float and no text on the rows. -/
def WholeCells (col : Option ℕ) (rows : List Row) : Prop :=
  ∀ row ∈ rows, ∀ v ∈ aggCell col row, (Value.whole v).isSome

namespace AggShape

/-- An aggregate whose terms are a seed of backfill rows. -/
def seeded (a : AggShape) (seed : List Row) : AggShape :=
  { a with terms := AggSeed.default.foldRows a.pred a.func a.col seed }

/-- Fold the changes one after the other. -/
def run (a : AggShape) (cs : List (RowChange Row)) : AggShape :=
  cs.foldl (fun a c => (a.apply c.delta).1) a

end AggShape

section
variable {func : AggFn} {col : Option ℕ}

lemma AggSeed.foldRow_eq (s : AggSeed) (row : Row) (w : ℤ) :
    s.foldRow func col row w =
      match aggCell col row with
      | none => { s with count := s.count+w }
      | some v =>
        { count := s.count+w
          nnCount := s.nnCount+w
          sum := s.sum.add v w
          multiset := if func = .min ∨ func = .max then Tally.bump s.multiset v w else s.multiset } := by
  cases col with
  | none => rfl
  | some ci =>
    by_cases h : row.cell ci = .null
    · simp [foldRow,aggCell,h]
    · simp [foldRow,aggCell,h,Tally.bump]

lemma AggSum.add_whole {v : Value} {n : ℤ} (h : v.whole = some n) (acc w : ℤ) :
    (AggSum.int acc).add v w = .int (acc+n*w) := by
  cases v with
  | int i =>
    obtain rfl := Option.some.inj h
    rfl
  | bool b =>
    obtain rfl := Option.some.inj h
    rfl
  | null => cases h
  | text s => cases h
  | float f => cases h

/-- The terms of an aggregate stand for some rows; the sum does where the cells are whole. -/
structure Tracks (func : AggFn) (col : Option ℕ) (exact : Prop) (s : AggSeed) (rows : List Row) :
    Prop where
  count : s.count = rows.length
  nnCount : s.nnCount = (aggCells col rows).length
  multiset : func = .min ∨ func = .max → Tally.Counts s.multiset (aggCells col rows)
  sum : exact → s.sum = .int (wholeSum (aggCells col rows)) ∧ ∀ v ∈ aggCells col rows, v.whole.isSome

variable {exact : Prop} {s : AggSeed} {rows rows' : List Row}

lemma tracks_default : Tracks func col exact .default [] :=
  ⟨rfl,rfl,fun _ => Tally.counts_empty,fun _ => ⟨rfl,by simp [aggCells]⟩⟩

lemma Tracks.perm (h : Tracks func col exact s rows) (hperm : rows.Perm rows') :
    Tracks func col exact s rows' := by
  have hcells : (aggCells col rows).Perm (aggCells col rows') := hperm.filterMap _
  refine ⟨?_,?_,fun hf => (h.multiset hf).perm hcells,fun hx => ?_⟩
  · rw [h.count,hperm.length_eq]
  · rw [h.nnCount,hcells.length_eq]
  · obtain ⟨hsum,hwhole⟩ := h.sum hx
    refine ⟨?_,fun v hv => hwhole v (hcells.mem_iff.mpr hv)⟩
    rw [hsum,wholeSum,wholeSum,(hcells.map _).sum_eq]

/-- A row that comes in. -/
lemma Tracks.add (h : Tracks func col exact s rows) {row : Row}
    (hrow : exact → ∀ v ∈ aggCell col row, v.whole.isSome) :
    Tracks func col exact (s.foldRow func col row 1) (row::rows) := by
  rw [AggSeed.foldRow_eq]
  cases hv : aggCell col row with
  | none =>
    have hcells : aggCells col (row::rows) = aggCells col rows := List.filterMap_cons_none hv
    refine ⟨?_,?_,?_,?_⟩
    · simp [h.count]
    · rw [hcells,← h.nnCount]
    · rw [hcells]
      exact h.multiset
    · rw [hcells]
      exact h.sum
  | some v =>
    have hcells : aggCells col (row::rows) = v::aggCells col rows := List.filterMap_cons_some hv
    refine ⟨?_,?_,fun hf => ?_,fun hx => ?_⟩
    · simp [h.count]
    · simp [hcells,h.nnCount]
    · rw [hcells]
      simpa only [if_pos hf] using (h.multiset hf).add v
    · obtain ⟨hsum,hwhole⟩ := h.sum hx
      obtain ⟨n,hn⟩ := Option.isSome_iff_exists.mp (hrow hx v hv)
      rw [hcells]
      refine ⟨?_,List.forall_mem_cons.mpr ⟨hrow hx v hv,hwhole⟩⟩
      change s.sum.add v 1 = _
      rw [hsum,AggSum.add_whole hn]
      simp [wholeSum,hn,add_comm]

/-- A row that goes out: the terms are those of the rows that stay. -/
lemma Tracks.remove {row : Row} (h : Tracks func col exact s (row::rows)) :
    Tracks func col exact (s.foldRow func col row (-1)) rows := by
  have hcount : s.count = rows.length+1 := by simpa using h.count
  rw [AggSeed.foldRow_eq]
  cases hv : aggCell col row with
  | none =>
    have hcells : aggCells col (row::rows) = aggCells col rows := List.filterMap_cons_none hv
    refine ⟨?_,?_,?_,?_⟩
    · simp [hcount]
    · rw [← hcells,← h.nnCount]
    · rw [← hcells]
      exact h.multiset
    · rw [← hcells]
      exact h.sum
  | some v =>
    have hcells : aggCells col (row::rows) = v::aggCells col rows := List.filterMap_cons_some hv
    have hnn := h.nnCount
    have hmulti := h.multiset
    have hexact := h.sum
    rw [hcells] at hnn hmulti hexact
    refine ⟨?_,?_,fun hf => ?_,fun hx => ?_⟩
    · simp [hcount]
    · simp [hnn]
    · simpa only [if_pos hf] using (hmulti hf).remove
    · obtain ⟨hsum,hwhole⟩ := hexact hx
      obtain ⟨hvw,hwhole⟩ := List.forall_mem_cons.mp hwhole
      obtain ⟨n,hn⟩ := Option.isSome_iff_exists.mp hvw
      refine ⟨?_,hwhole⟩
      change s.sum.add v (-1) = _
      rw [hsum,AggSum.add_whole hn]
      simp [wholeSum,hn]

/-- The scan for an extreme key finds one. -/
lemma foldl_extreme {le : Value → Value → Bool} (hrefl : ∀ a, le a a)
    (htotal : ∀ a b, le a b ∨ le b a) (htrans : ∀ a b c, le a b → le b c → le a c) (k : Value)
    (ks : List Value) :
    let best := ks.foldl (fun best k => if le best k then best else k) k
    best ∈ k::ks ∧ ∀ k' ∈ k::ks, le best k' := by
  induction ks generalizing k with
  | nil => simp [hrefl]
  | cons k' ks ih =>
    rw [List.foldl_cons]
    split_ifs with h
    · obtain ⟨hmem,hle⟩ := ih k
      obtain ⟨hk,hks⟩ := List.forall_mem_cons.mp hle
      refine ⟨?_,List.forall_mem_cons.mpr ⟨hk,List.forall_mem_cons.mpr ⟨htrans _ _ _ hk h,hks⟩⟩⟩
      exact List.mem_cons.mpr ((List.mem_cons.mp hmem).imp_right (List.mem_cons_of_mem k'))
    · obtain ⟨hmem,hle⟩ := ih k'
      have hk' := hle k' (.head _)
      exact ⟨.tail _ hmem,List.forall_mem_cons.mpr
        ⟨htrans _ _ _ hk' ((htotal k' k).resolve_right h),hle⟩⟩

/-- The least or the greatest key of the multiset is the extreme cell. -/
lemma Tracks.extreme (h : Tracks func col exact s rows) (hf : func = .min ∨ func = .max)
    {le : Value → Value → Bool} (hrefl : ∀ a, le a a) (htotal : ∀ a b, le a b ∨ le b a)
    (htrans : ∀ a b c, le a b → le b c → le a c) (hcongr : ∀ a b c, a.eqv b → le c a → le c b) :
    if aggCells col rows = [] then s.extreme le = .null
    else ∃ k, Extreme (fun a b => le a b = true) (aggCells col rows) k ∧ s.extreme le = k.toJson := by
  have hcounts := h.multiset hf
  rw [AggSeed.extreme]
  cases hks : s.multiset.keys with
  | nil =>
    rw [if_pos]
    refine List.eq_nil_iff_forall_not_mem.mpr fun v hv => ?_
    obtain ⟨k,hk,-⟩ := hcounts.key_of_mem hv
    rw [hks] at hk
    cases hk
  | cons k ks =>
    obtain ⟨hmem,hle⟩ := foldl_extreme hrefl htotal htrans k ks
    rw [← hks] at hmem hle
    obtain ⟨v,hv,hvk⟩ := hcounts.mem_of_key hmem
    rw [if_neg (List.ne_nil_of_mem hv)]
    refine ⟨_,⟨⟨v,hv,hvk⟩,fun v' hv' => ?_⟩,rfl⟩
    obtain ⟨k',hk',hkv'⟩ := hcounts.key_of_mem hv'
    exact hcongr k' v' _ hkv' (hle k' hk')

/-- What the terms say is the aggregate of the rows that they stand for. -/
theorem Tracks.sqlAggregate (h : Tracks func col exact s rows)
    (hexact : func = .sum ∨ func = .avg → exact) : SqlAggregate func col rows (s.value func col) := by
  have hempty : aggCells col rows = [] ↔ ¬0 < s.nnCount := by
    rw [h.nnCount,← List.length_eq_zero_iff]
    omega
  cases func with
  | count =>
    cases col with
    | none => exact congrArg Json.int h.count
    | some ci => exact congrArg Json.int h.nnCount
  | sum =>
    obtain ⟨hsum,hwhole⟩ := h.sum (hexact (.inl rfl))
    rw [SqlAggregate,AggSeed.value,hsum]
    split_ifs with hnil hpos hpos
    · exact absurd hpos (hempty.mp hnil)
    · rfl
    · rfl
    · exact absurd (hempty.mpr hpos) hnil
  | avg =>
    obtain ⟨hsum,hwhole⟩ := h.sum (hexact (.inr rfl))
    rw [SqlAggregate,AggSeed.value,hsum]
    split_ifs with hnil hpos hpos
    · exact absurd hpos (hempty.mp hnil)
    · rfl
    · rw [h.nnCount]
      rfl
    · exact absurd (hempty.mpr hpos) hnil
  | min =>
    have hext := @Tracks.extreme _ _ _ _ _ h (.inl rfl) (fun a b => decide (a.code ≤ b.code)) (by simp)
      (fun a b => by simpa using le_total a.code b.code) (fun a b c => by simpa using le_trans)
      fun a b c hab => by simp [(Value.eqv_iff_code a b).mp hab]
    simpa only [SqlAggregate,AggSeed.value,decide_eq_true_eq] using hext
  | max =>
    have hext := @Tracks.extreme _ _ _ _ _ h (.inr rfl) (fun a b => decide (b.code ≤ a.code)) (by simp)
      (fun a b => by simpa using le_total b.code a.code)
      (fun a b c => by simpa using fun hab hbc => le_trans hbc hab)
      fun a b c hab => by simp [(Value.eqv_iff_code a b).mp hab]
    simpa only [SqlAggregate,AggSeed.value,decide_eq_true_eq] using hext

/-- Over no row the counts are zero and everything else is NULL, whatever was summed before. -/
lemma Tracks.value_nil (h : Tracks func col exact s []) :
    s.value func col = if func = .count then .int 0 else .null := by
  have hnn : s.nnCount = 0 := h.nnCount
  cases func with
  | count =>
    have hsql := h.sqlAggregate (by simp)
    simpa [SqlAggregate,aggCells] using hsql
  | sum => simp [AggSeed.value,hnn]
  | avg => simp [AggSeed.value,hnn]
  | min =>
    have hsql := h.sqlAggregate (by simp)
    simpa [SqlAggregate,aggCells] using hsql
  | max =>
    have hsql := h.sqlAggregate (by simp)
    simpa [SqlAggregate,aggCells] using hsql

end

/-- Cells in one place of the order compare alike. -/
lemma cmp_congr {a b : Value} (h : a.eqv b = true) (op : LeafOp) (v : Value) : cmp a op v = cmp b op v := by
  have hcode := (Value.eqv_iff_code a b).mp h
  have hnull : a = .null ↔ b = .null := by
    rw [← Value.eqv_null a,← Value.eqv_null b,Value.eqv_iff_code,Value.eqv_iff_code,hcode]
  have heqv : a.eqv v = b.eqv v := by
    rw [Bool.eq_iff_iff,Value.eqv_iff_code,Value.eqv_iff_code,hcode]
  have hord : a.ordering v = b.ordering v := by
    have hrank : a.rank = b.rank := Value.rank_eq_of_eqv h
    simp only [Value.ordering_eq,hrank,hcode,ne_eq,hnull]
  cases op with
  | like => cases a <;> cases b <;> simp_all [cmp,Value.eqv]
  | _ => simp only [cmp,hnull,heqv,hord]

namespace CompiledPredicate

/-- Equal rows are not told apart. -/
lemma evalCtx_congr {row row' : Row} (h : ∀ col, (row.cell col).eqv (row'.cell col) = true)
    (p : CompiledPredicate) : p.evalCtx row panicEval = p.evalCtx row' panicEval := by
  have hnull : ∀ col, row.cell col = .null ↔ row'.cell col = .null := fun col => by
    rw [← Value.eqv_null (row.cell col),← Value.eqv_null (row'.cell col),Value.eqv_iff_code,
      Value.eqv_iff_code,(Value.eqv_iff_code _ _).mp (h col)]
  induction p using CompiledPredicate.induction_on with
  | matchAll => rfl
  | cmp col op value => exact cmp_congr (h col) op value
  | isNull col b => simp only [evalCtx,hnull]
  | and ps ih =>
    have hps : ∀ acc, evalAnd row panicEval acc ps = evalAnd row' panicEval acc ps := by
      induction ps with
      | nil => exact fun _ => rfl
      | cons p ps ihs =>
        intro acc
        simp only [evalAnd,ih p (.head _),ihs fun p hp => ih p (.tail _ hp)]
    exact hps .true
  | or ps ih =>
    have hps : ∀ acc, evalOr row panicEval acc ps = evalOr row' panicEval acc ps := by
      induction ps with
      | nil => exact fun _ => rfl
      | cons p ps ihs =>
        intro acc
        simp only [evalOr,ih p (.head _),ihs fun p hp => ih p (.tail _ hp)]
    exact hps .false
  | not p ih => rw [evalCtx,evalCtx,ih]
  | inSubquery col sig negated => simp only [evalCtx,hnull,panicEval]

end CompiledPredicate

lemma Row.cell_eqv {row row' : Row} (h : (row == row') = true) (col : ℕ) :
    (row.cell col).eqv (row'.cell col) = true := by
  have hcodes := congrArg (·[col]?) ((Row.beq_iff_codes row row').mp h)
  simp only [List.getElem?_map] at hcodes
  rw [Value.eqv_iff_code,Row.cell,Row.cell,List.getD_eq_getElem?_getD,List.getD_eq_getElem?_getD]
  cases hr : row.cells[col]? <;> cases hr' : row'.cells[col]? <;> simp_all

lemma Row.cell_null {row row' : Row} (h : (row == row') = true) (col : ℕ) :
    row.cell col = .null ↔ row'.cell col = .null := by
  rw [← Value.eqv_null (row.cell col),← Value.eqv_null (row'.cell col),Value.eqv_iff_code,
    Value.eqv_iff_code,(Value.eqv_iff_code _ _).mp (Row.cell_eqv h col)]

lemma Value.whole_congr {a b : Value} (h : a.eqv b = true) : a.whole = b.whole := by
  cases a <;> cases b <;> simp_all [eqv,whole]

section
variable {func : AggFn} {col : Option ℕ} {exact : Prop} {s : AggSeed} {rows : List Row}

/-- A row that is replaced by an equal one. -/
lemma Tracks.replace {old new : Row} (h : Tracks func col exact s (old::rows))
    (heq : (old == new) = true) : Tracks func col exact s (new::rows) := by
  cases hold : aggCell col old with
  | none =>
    have hnew : aggCell col new = none := by
      cases col with
      | none => rfl
      | some ci => simpa [aggCell,Row.cell_null heq] using hold
    have hcells : aggCells col (new::rows) = aggCells col (old::rows) :=
      (List.filterMap_cons_none hnew).trans (List.filterMap_cons_none hold).symm
    refine ⟨h.count,?_,?_,?_⟩ <;> rw [hcells]
    exacts [h.nnCount,h.multiset,h.sum]
  | some v =>
    obtain ⟨v',hnew,hv⟩ : ∃ v', aggCell col new = some v' ∧ v.eqv v' = true := by
      cases col with
      | none => cases hold
      | some ci =>
        rw [aggCell,Option.bind_some] at hold
        split_ifs at hold with hnull
        obtain rfl := Option.some.inj hold
        have hnull' : ¬new.cell ci = .null := fun hn => hnull ((Row.cell_null heq ci).mpr hn)
        exact ⟨_,by rw [aggCell,Option.bind_some,if_neg hnull'],Row.cell_eqv heq ci⟩
    have hc : aggCells col (old::rows) = v::aggCells col rows := List.filterMap_cons_some hold
    have hc' : aggCells col (new::rows) = v'::aggCells col rows := List.filterMap_cons_some hnew
    have hnn := h.nnCount
    have hmulti := h.multiset
    have hexact := h.sum
    rw [hc] at hnn hmulti hexact
    refine ⟨h.count,?_,fun hf k => ?_,fun hx => ?_⟩ <;> rw [hc']
    · exact hnn
    · have hsame : (v::aggCells col rows).countP (· == k) = (v'::aggCells col rows).countP (· == k) := by
        have hbeq : (v == k) = (v' == k) := by
          rw [Bool.eq_iff_iff,Value.beq_iff_code,Value.beq_iff_code,(Value.eqv_iff_code v v').mp hv]
        rw [List.countP_cons,List.countP_cons,hbeq]
      rw [hmulti hf k,hsame]
    · have hwhole := Value.whole_congr hv
      simpa only [wholeSum,List.map_cons,List.forall_mem_cons,hwhole] using hexact hx

variable {pred : CompiledPredicate}

lemma Tracks.addMatching (h : Tracks func col exact s (rows.filter pred.matchesRow)) {row : Row}
    (hrow : exact → ∀ v ∈ aggCell col row, v.whole.isSome) :
    Tracks func col exact (s.foldDelta pred func col [(row,1)])
      ((row::rows).filter pred.matchesRow) := by
  cases hm : pred.matchesRow row with
  | false => simpa [AggSeed.foldDelta,hm] using h
  | true => simpa [AggSeed.foldDelta,hm] using h.add hrow

lemma Tracks.removeMatching {row : Row} (h : Tracks func col exact s ((row::rows).filter pred.matchesRow)) :
    Tracks func col exact (s.foldDelta pred func col [(row,-1)]) (rows.filter pred.matchesRow) := by
  cases hm : pred.matchesRow row with
  | false => simpa [AggSeed.foldDelta,hm] using h
  | true =>
    rw [List.filter_cons_of_pos hm] at h
    simpa [AggSeed.foldDelta,hm] using h.remove

lemma foldDelta_append (s : AggSeed) (d d' : Delta) :
    s.foldDelta pred func col (d ++ d') = (s.foldDelta pred func col d).foldDelta pred func col d' :=
  List.foldl_append

/-- One change: a row comes in, goes out, is changed inside or across the predicate. -/
lemma Tracks.change (h : Tracks func col exact s (rows.filter pred.matchesRow)) {c : RowChange Row}
    (hvalid : ∀ old ∈ c.old, old ∈ rows) (hnew : exact → WholeCells col c.new.toList) :
    Tracks func col exact (s.foldDelta pred func col c.delta) ((c.applyRows rows).filter pred.matchesRow) := by
  have hin : ∀ new ∈ c.new, exact → ∀ v ∈ aggCell col new, v.whole.isSome := fun new hn hx =>
    hnew hx new (by simpa using hn)
  obtain ⟨old,new⟩ := c
  cases old with
  | none =>
    cases new with
    | none => exact h
    | some new => exact h.addMatching (hin new rfl)
  | some old =>
    have hout := h.perm ((perm_eraseP (hvalid old rfl)).filter _)
    cases new with
    | none => exact hout.removeMatching
    | some new =>
      rw [RowChange.delta,imageDelta]
      split_ifs with heq
      · -- the delta is empty, and the two images are one to the predicate and to the column
        have hmatch : pred.matchesRow old = pred.matchesRow new := by
          rw [Bool.eq_iff_iff,CompiledPredicate.matchesRow_iff,CompiledPredicate.matchesRow_iff,
            CompiledPredicate.evalCtx_congr (Row.cell_eqv heq)]
        change Tracks func col exact s ((new::rows.eraseP _).filter pred.matchesRow)
        cases hm : pred.matchesRow old with
        | false =>
          rw [List.filter_cons_of_neg (by simp [hm])] at hout
          rwa [List.filter_cons_of_neg (by simp [← hmatch,hm])]
        | true =>
          rw [List.filter_cons_of_pos hm] at hout
          rw [List.filter_cons_of_pos (hmatch ▸ hm)]
          exact hout.replace heq
      · exact hout.removeMatching.addMatching (hin new rfl)

/-- A chunk of backfill rows comes in row by row. -/
lemma Tracks.seed (h : Tracks func col exact s (rows.filter pred.matchesRow)) {chunk : List Row}
    (hchunk : exact → WholeCells col chunk) :
    Tracks func col exact (s.foldRows pred func col chunk) ((chunk ++ rows).filter pred.matchesRow) := by
  induction chunk generalizing s rows with
  | nil => exact h
  | cons row chunk ih =>
    refine (ih (h.addMatching fun hx => hchunk hx row (.head _)) fun hx row hr => hchunk hx row (.tail _ hr)).perm ?_
    exact (List.perm_middle).filter _

/-- Any valid changes, one after the other. -/
lemma Tracks.changes (h : Tracks func col exact s (rows.filter pred.matchesRow)) {cs : List (RowChange Row)}
    (hvalid : ValidChanges rows cs) (hnew : exact → WholeCells col (cs.flatMap fun c => c.new.toList)) :
    Tracks func col exact (s.foldDelta pred func col (cs.flatMap RowChange.delta))
      ((rowsAfter rows cs).filter pred.matchesRow) := by
  induction cs generalizing s rows with
  | nil => exact h
  | cons c cs ih =>
    obtain ⟨hc,hcs⟩ := hvalid
    rw [List.flatMap_cons,foldDelta_append]
    rw [List.flatMap_cons] at hnew
    refine ih (h.change hc fun hx row hrow => hnew hx row (List.mem_append_left _ hrow)) hcs
      fun hx row hrow => hnew hx row (List.mem_append_right _ hrow)

end

namespace AggShape

lemma run_terms (a : AggShape) (cs : List (RowChange Row)) :
    a.run cs = { a with terms := a.terms.foldDelta a.pred a.func a.col (cs.flatMap RowChange.delta) } := by
  induction cs generalizing a with
  | nil => rfl
  | cons c cs ih =>
    change ((a.apply c.delta).1).run cs = _
    rw [ih,List.flatMap_cons,foldDelta_append]
    rfl

lemma tracks_run (a : AggShape) {seed : List Row} {cs : List (RowChange Row)} {exact : Prop}
    (hvalid : ValidChanges seed cs)
    (hexact : exact → WholeCells a.col (seed ++ cs.flatMap fun c => c.new.toList)) :
    Tracks a.func a.col exact ((a.seeded seed).run cs).terms
      ((rowsAfter seed cs).filter a.pred.matchesRow) := by
  have hnil : Tracks a.func a.col exact .default (([] : List Row).filter a.pred.matchesRow) :=
    tracks_default
  have hseed := hnil.seed fun hx row hrow => hexact hx row (List.mem_append_left _ hrow)
  rw [List.append_nil] at hseed
  rw [run_terms]
  exact hseed.changes hvalid fun hx row hrow => hexact hx row (List.mem_append_right _ hrow)

section Sample

/-- `SUM` of the only column over all rows. -/
def sampleSum : AggShape := ⟨.matchAll,.sum,some 0,"agg",.passthrough,.default,none⟩

/-- A row of one double: `10^16`, and `1`. -/
def sampleBig : Row := ⟨[.float ⟨0x4341C37937E08000⟩]⟩
def sampleOne : Row := ⟨[.float ⟨0x3FF0000000000000⟩]⟩

def sampleDrift : List (RowChange Row) := [⟨none,some sampleOne⟩,⟨some sampleBig,none⟩]

def doubleBits : Json → Option (BitVec 64)
  | .float f => some f.bits
  | _ => none

end Sample
end AggShape
end ElectricCircuits
