import ElectricCircuits.SqlComparison

/-! The WHERE that selects the rows of a shape in Postgres, against the evaluator that selects them from the log:
both emitters follow the predicate down to its leaves, so a predicate is read as it is evaluated when the leaves that
are not misread settle it. -/
namespace ElectricCircuits
open ThreeValued SqlExpr

namespace PredicateJson

mutual

/-- A predicate as a formula over its leaves. -/
def formula : PredicateJson → Formula PredicateJson
  | .and ps => Formula.all (formulas ps)
  | .or ps => Formula.any (formulas ps)
  | .not p => .not (formula p)
  | p => .leaf p

def formulas : List PredicateJson → List (Formula PredicateJson)
  | [] => []
  | p :: ps => formula p :: formulas ps

end

/-- The leaves of a predicate, each with whether it stands under an odd number of NOTs. -/
def leaves (p : PredicateJson) : List (Bool × PredicateJson) := p.formula.leaves false

section
variable (leaf : PredicateJson → Expr String)

mutual

/-- The condition of a predicate whose leaves are written by `leaf`. -/
def condition : PredicateJson → Expr String
  | .and ps => if ps.isEmpty then .const true else .paren (Expr.allOf (conditions ps))
  | .or ps => if ps.isEmpty then .const false else .paren (Expr.anyOf (conditions ps))
  | .not p => .paren (.not (condition p))
  | p => leaf p

def conditions : List PredicateJson → List (Expr String)
  | [] => []
  | p :: ps => condition p :: conditions ps

end

end

lemma formulas_eq_map (ps : List PredicateJson) : formulas ps = ps.map formula := by
  induction ps with
  | nil => rfl
  | cons p ps ih => rw [formulas,ih,List.map_cons]

lemma conditions_eq_map (leaf : PredicateJson → Expr String) (ps : List PredicateJson) :
    conditions leaf ps = ps.map (condition leaf) := by
  induction ps with
  | nil => rfl
  | cons p ps ih => rw [conditions,ih,List.map_cons]

end PredicateJson

section
variable {pg : Postgres} {t : PgTable} {row : Row}
  {select : String → String → String → Option (Expr String) → Finset Value}

lemma min_yes (u : Option Truth) : (do return (← u).min (← some .yes) : Option Truth) = u := by
  cases u with
  | none => rfl
  | some x => cases x <;> rfl

lemma max_no (u : Option Truth) : (do return (← u).max (← some .no) : Option Truth) = u := by
  cases u with
  | none => rfl
  | some x => cases x <;> rfl

lemma truth_allOf {α : Type} {w : α → Option Truth} {es : List (Expr String)} {fs : List (Formula α)}
    (h : List.Forall₂ (fun e f => pg.truth t row select e = f.partialValue w) es fs) :
    pg.truth t row select (Expr.allOf es) = (Formula.all fs).partialValue w := by
  induction h with
  | nil => rfl
  | @cons e f es fs he hes ih =>
    cases hes with
    | nil =>
      change pg.truth t row select e = (do return (← f.partialValue w).min (← some .yes))
      rw [min_yes,he]
    | @cons e' f' es fs he' hes =>
      change (do return (← pg.truth t row select e).min (← pg.truth t row select (Expr.allOf (e' :: es)))) = _
      rw [he,ih]
      rfl

lemma truth_anyOf {α : Type} {w : α → Option Truth} {es : List (Expr String)} {fs : List (Formula α)}
    (h : List.Forall₂ (fun e f => pg.truth t row select e = f.partialValue w) es fs) :
    pg.truth t row select (Expr.anyOf es) = (Formula.any fs).partialValue w := by
  induction h with
  | nil => rfl
  | @cons e f es fs he hes ih =>
    cases hes with
    | nil =>
      change pg.truth t row select e = (do return (← f.partialValue w).max (← some .no))
      rw [max_no,he]
    | @cons e' f' es fs he' hes =>
      change (do return (← pg.truth t row select e).max (← pg.truth t row select (Expr.anyOf (e' :: es)))) = _
      rw [he,ih]
      rfl

namespace PredicateJson
variable {leaf : PredicateJson → Expr String}

lemma forall₂_conditions {w : PredicateJson → Option Truth} {ps : List PredicateJson}
    (h : ∀ p ∈ ps, pg.truth t row select (condition leaf p) = (formula p).partialValue w) :
    List.Forall₂ (fun e f => pg.truth t row select e = f.partialValue w) (conditions leaf ps) (formulas ps) := by
  rw [conditions_eq_map,formulas_eq_map,List.forall₂_map_left_iff,List.forall₂_map_right_iff]
  exact List.forall₂_same.mpr h

/-- Postgres reads a predicate as the formula of what it makes of the leaves. -/
theorem truth_condition (p : PredicateJson) : pg.truth t row select (condition leaf p) =
    (formula p).partialValue fun l => pg.truth t row select (leaf l) := by
  induction p using PredicateJson.induction_on with
  | and ps ih =>
    cases hnil : ps with
    | nil => rfl
    | cons q qs =>
      rw [← hnil,condition,formula]
      have hfull : ps.isEmpty = false := by rw [hnil]; rfl
      rw [hfull]
      exact truth_allOf (forall₂_conditions ih)
  | or ps ih =>
    cases hnil : ps with
    | nil => rfl
    | cons q qs =>
      rw [← hnil,condition,formula]
      have hfull : ps.isEmpty = false := by rw [hnil]; rfl
      rw [hfull]
      exact truth_anyOf (forall₂_conditions ih)
  | not p ih =>
    change (pg.truth t row select (condition leaf p)).map Truth.neg = _
    rw [ih]
    rfl
  | _ => rfl

lemma jsonExpr_eq_condition (ft : FloatText) (schemas : String → Option PgTable) (table : String)
    (p : PredicateJson) : jsonExpr ft schemas table p = condition (jsonExpr ft schemas table) p := by
  induction p using PredicateJson.induction_on with
  | and ps ih => rw [jsonExpr,condition,jsonExprs_eq_map,conditions_eq_map,List.map_congr_left ih]
  | or ps ih => rw [jsonExpr,condition,jsonExprs_eq_map,conditions_eq_map,List.map_congr_left ih]
  | not p ih => rw [jsonExpr,condition,← ih]
  | _ => rw [condition] <;> simp

section
variable (parseF64 : String → Option OrderedFloat) (ts : TableSchema) (collector : SubqueryCollector)

/-- A predicate and every part of it, as they are compiled. -/
def compiled (p : PredicateJson) : CompiledPredicate :=
  match CompiledPredicate.compileWith parseF64 ts collector p with
  | .ok c => c
  | .error _ => .matchAll

end

variable {parseF64 : String → Option OrderedFloat} {ts : TableSchema} {collector : SubqueryCollector}

lemma compiled_eq {p : PredicateJson} {c : CompiledPredicate}
    (h : CompiledPredicate.compileWith parseF64 ts collector p = .ok c) : compiled parseF64 ts collector p = c := by
  rw [compiled,h]

lemma compiled_ok {p : PredicateJson} {c : CompiledPredicate}
    (h : CompiledPredicate.compileWith parseF64 ts collector p = .ok c) :
    CompiledPredicate.compileWith parseF64 ts collector p = .ok (compiled parseF64 ts collector p) := by
  rw [compiled_eq h,h]

lemma compileAll_ok {ps : List PredicateJson} {cs : List CompiledPredicate}
    (h : CompiledPredicate.compileAll parseF64 ts collector ps = .ok cs) :
    cs = ps.map (compiled parseF64 ts collector) ∧
      ∀ p ∈ ps, CompiledPredicate.compileWith parseF64 ts collector p = .ok (compiled parseF64 ts collector p) := by
  rw [CompiledPredicate.compileAll_eq_ok] at h
  induction h with
  | nil => exact ⟨rfl,nofun⟩
  | cons hp _ ih => exact ⟨by rw [List.map_cons,compiled_eq hp,← ih.1],List.forall_mem_cons.mpr ⟨compiled_ok hp,ih.2⟩⟩

lemma compile_and {ps : List PredicateJson} {c : CompiledPredicate}
    (h : CompiledPredicate.compileWith parseF64 ts collector (.and ps) = .ok c) :
    c = .and (ps.map (compiled parseF64 ts collector)) ∧
      ∀ q ∈ ps, CompiledPredicate.compileWith parseF64 ts collector q = .ok (compiled parseF64 ts collector q) := by
  simp only [CompiledPredicate.compileWith,bind_eq_ok] at h
  obtain ⟨cs,hcs,h⟩ := h
  obtain ⟨rfl,hall⟩ := compileAll_ok hcs
  exact ⟨(Except.ok.inj h).symm,hall⟩

lemma compile_or {ps : List PredicateJson} {c : CompiledPredicate}
    (h : CompiledPredicate.compileWith parseF64 ts collector (.or ps) = .ok c) :
    c = .or (ps.map (compiled parseF64 ts collector)) ∧
      ∀ q ∈ ps, CompiledPredicate.compileWith parseF64 ts collector q = .ok (compiled parseF64 ts collector q) := by
  simp only [CompiledPredicate.compileWith,bind_eq_ok] at h
  obtain ⟨cs,hcs,h⟩ := h
  obtain ⟨rfl,hall⟩ := compileAll_ok hcs
  exact ⟨(Except.ok.inj h).symm,hall⟩

lemma compile_not {p : PredicateJson} {c : CompiledPredicate}
    (h : CompiledPredicate.compileWith parseF64 ts collector (.not p) = .ok c) :
    c = .not (compiled parseF64 ts collector p) ∧
      CompiledPredicate.compileWith parseF64 ts collector p = .ok (compiled parseF64 ts collector p) := by
  simp only [CompiledPredicate.compileWith,bind_eq_ok] at h
  obtain ⟨c',hc',h⟩ := h
  exact ⟨(Except.ok.inj h).symm.trans (by rw [compiled_eq hc']),compiled_ok hc'⟩

/-- The leaves of a predicate that compiles do. -/
lemma leaves_compile (p : PredicateJson) : ∀ odd c, CompiledPredicate.compileWith parseF64 ts collector p = .ok c →
    ∀ l ∈ (formula p).leaves odd,
      CompiledPredicate.compileWith parseF64 ts collector l.2 = .ok (compiled parseF64 ts collector l.2) := by
  induction p using PredicateJson.induction_on with
  | and ps ih =>
    intro odd c h l hl
    obtain ⟨f,hf,hlf⟩ := Formula.mem_leaves_all.mp hl
    rw [formulas_eq_map] at hf
    obtain ⟨q,hq,rfl⟩ := List.mem_map.mp hf
    exact ih q hq odd _ ((compile_and h).2 q hq) l hlf
  | or ps ih =>
    intro odd c h l hl
    obtain ⟨f,hf,hlf⟩ := Formula.mem_leaves_any.mp hl
    rw [formulas_eq_map] at hf
    obtain ⟨q,hq,rfl⟩ := List.mem_map.mp hf
    exact ih q hq odd _ ((compile_or h).2 q hq) l hlf
  | not p ih => exact fun odd c h => ih (!odd) _ (compile_not h).2
  | _ =>
    intro odd c h l hl
    obtain rfl := List.mem_singleton.mp hl
    exact compiled_ok h

lemma values_congr {ev : SubqueryEval} {v : PredicateJson → Truth} {ps : List PredicateJson}
    (ih : ∀ p ∈ ps, ∀ c, CompiledPredicate.compileWith parseF64 ts collector p = .ok c →
      (c.evalCtx row ev).truth = (formula p).value v)
    (hps : ∀ p ∈ ps, CompiledPredicate.compileWith parseF64 ts collector p = .ok (compiled parseF64 ts collector p)) :
    ps.map ((fun c => (CompiledPredicate.evalCtx row ev c).truth) ∘ compiled parseF64 ts collector) =
      ps.map (Formula.value v ∘ formula) :=
  List.map_congr_left fun p hp => ih p hp _ (hps p hp)

/-- The evaluator's value of a predicate is that of the formula over its leaves. -/
theorem truth_eq_value {ev : SubqueryEval} (p : PredicateJson) :
    ∀ c, CompiledPredicate.compileWith parseF64 ts collector p = .ok c → (c.evalCtx row ev).truth =
      (formula p).value fun l => ((compiled parseF64 ts collector l).evalCtx row ev).truth := by
  induction p using PredicateJson.induction_on with
  | and ps ih =>
    intro c h
    obtain ⟨rfl,hps⟩ := compile_and h
    rw [CompiledPredicate.evalCtx,CompiledPredicate.truth_evalAnd _ _ _ (by decide),formula,Formula.value_all,
      formulas_eq_map,List.map_map,List.map_map,values_congr ih hps]
    exact Tri.min_true _
  | or ps ih =>
    intro c h
    obtain ⟨rfl,hps⟩ := compile_or h
    rw [CompiledPredicate.evalCtx,CompiledPredicate.truth_evalOr _ _ _ (by decide),formula,Formula.value_any,
      formulas_eq_map,List.map_map,List.map_map,values_congr ih hps]
    exact Tri.max_false _
  | not p ih =>
    intro c h
    obtain ⟨rfl,hp⟩ := compile_not h
    rw [CompiledPredicate.evalCtx,formula,Formula.value,← ih _ hp]
    cases CompiledPredicate.evalCtx row ev (compiled parseF64 ts collector p) <;> rfl
  | _ =>
    intro c h
    exact congrArg (fun c => (CompiledPredicate.evalCtx row ev c).truth) (compiled_eq h).symm

/-- The condition of what was compiled follows the predicate of the request. -/
lemma exprOf_eq_condition (p : PredicateJson) : ∀ c, CompiledPredicate.compileWith parseF64 ts collector p = .ok c →
    exprOf t c = condition (fun l => exprOf t (compiled parseF64 ts collector l)) p := by
  induction p using PredicateJson.induction_on with
  | and ps ih =>
    intro c h
    obtain ⟨rfl,hps⟩ := compile_and h
    rw [exprOf,condition,exprsOf_eq_map,conditions_eq_map,List.map_map,List.isEmpty_map,
      List.map_congr_left fun q hq => (ih q hq _ (hps q hq)).symm]
    rfl
  | or ps ih =>
    intro c h
    obtain ⟨rfl,hps⟩ := compile_or h
    rw [exprOf,condition,exprsOf_eq_map,conditions_eq_map,List.map_map,List.isEmpty_map,
      List.map_congr_left fun q hq => (ih q hq _ (hps q hq)).symm]
    rfl
  | not p ih =>
    intro c h
    obtain ⟨rfl,hp⟩ := compile_not h
    rw [exprOf,condition,ih _ hp]
  | _ => exact fun c h => congrArg (exprOf t) (compiled_eq h).symm

/-- Nothing below a leaf counts. -/
lemma formula_leaf (p : PredicateJson) : ∀ odd, ∀ l ∈ (formula p).leaves odd, formula l.2 = .leaf l.2 := by
  induction p using PredicateJson.induction_on with
  | and ps ih =>
    intro odd l hl
    obtain ⟨f,hf,hlf⟩ := Formula.mem_leaves_all.mp hl
    rw [formulas_eq_map] at hf
    obtain ⟨q,hq,rfl⟩ := List.mem_map.mp hf
    exact ih q hq odd l hlf
  | or ps ih =>
    intro odd l hl
    obtain ⟨f,hf,hlf⟩ := Formula.mem_leaves_any.mp hl
    rw [formulas_eq_map] at hf
    obtain ⟨q,hq,rfl⟩ := List.mem_map.mp hf
    exact ih q hq odd l hlf
  | not p ih => exact fun odd => ih (!odd)
  | _ =>
    intro odd l hl
    obtain rfl := List.mem_singleton.mp hl
    rfl

end PredicateJson

lemma binds_bound (start : ℕ) (ps : List String) :
    ∀ qs, Binds (Postgres.bound start (qs ++ ps)) (start+qs.length) ps := by
  induction ps with
  | nil => exact fun _ => trivial
  | cons p ps ih =>
    intro qs
    refine ⟨?_,?_⟩
    · rw [Postgres.bound,if_pos (Nat.le_add_right _ _),Nat.add_sub_cancel_left]
      simp
    · have h := ih (qs ++ [p])
      rwa [List.append_assoc,List.length_append,← Nat.add_assoc] at h

/-- The text of a condition, with the values of its placeholders, is read as the condition. -/
theorem isTrue_textFrom {e : Expr String} (he : At .test e) (start : ℕ) :
    pg.IsTrue t row select start (textFrom start e) e.params ↔ pg.truth t row select e = some .yes := by
  have hread := read_bind (.ofConjunction (.ofNegation (.ofTest he))) (binds_bound start e.params [])
  rw [Postgres.IsTrue,textFrom,String.toList_ofList]
  rw [List.nil_append,List.length_nil,Nat.add_zero] at hread
  rw [hread,Option.bind_some]

lemma leafExpr_at {lit : SqlLiteral} (hlit : ∀ s, lit = .number s → (numberOperand s).Ok) (col : String)
    (collated : Bool) (op : LeafOp) (type : Option String) : At .test (leafExpr col collated op type lit) := by
  cases lit with
  | null => exact .compare _ trivial trivial
  | bool b => exact .compare _ trivial trivial
  | number s => exact .compare _ trivial (hlit s rfl)
  | text s =>
    cases type with
    | none => exact .compare _ trivial trivial
    | some type => exact .compare _ trivial trivial

lemma at_all {es : List (Expr String)} (b : Bool) (h : ∀ e ∈ es, At .test e) :
    At .test (if b then .const true else .paren (Expr.allOf es)) := by
  split
  · exact .const true
  · exact .paren (.ofConjunction (At.allOf h))

lemma at_any {es : List (Expr String)} (b : Bool) (h : ∀ e ∈ es, At .test e) :
    At .test (if b then .const false else .paren (Expr.anyOf es)) := by
  split
  · exact .const false
  · exact .paren (At.anyOf h)

lemma at_not {e : Expr String} (h : At .test e) : At .test (.paren (.not e)) :=
  .paren (.ofConjunction (.ofNegation (.not (.ofTest h))))

lemma exprOf_at (c : CompiledPredicate) : At .test (exprOf t c) := by
  induction c using CompiledPredicate.induction_on with
  | matchAll => exact .const true
  | isNull col b => exact .isNull _ trivial
  | inSubquery col sig negated => exact .const false
  | cmp col op v =>
    refine leafExpr_at ?_ _ _ _ _
    cases v with
    | int i =>
      rintro s ⟨⟩
      exact (spelled_int i).ok
    | float f =>
      rintro s ⟨⟩
      cases hf : f.isFinite with
      | false => exact ok_infinite hf
      | true => exact (spelled_double hf).ok
    | _ => exact nofun
  | and ps ih =>
    rw [exprOf,exprsOf_eq_map]
    exact at_all _ (List.forall_mem_map.mpr ih)
  | or ps ih =>
    rw [exprOf,exprsOf_eq_map]
    exact at_any _ (List.forall_mem_map.mpr ih)
  | not p ih => exact at_not ih

namespace PredicateJson

lemma jsonExpr_at {ft : FloatText} (hft : ∀ f : OrderedFloat, f.isFinite = true → Spelled (String.ofList (ft.text f)))
    (schemas : String → Option PgTable) (p : PredicateJson) :
    ∀ table, At .test (jsonExpr ft schemas table p) := by
  induction p using PredicateJson.induction_on with
  | leaf col op value =>
    intro table
    refine leafExpr_at ?_ _ _ _ _
    have hfinite := value.finite
    cases hjson : value.json with
    | int i =>
      rintro s ⟨⟩
      exact (spelled_int i).ok
    | float f =>
      rintro s ⟨⟩
      rw [hjson] at hfinite
      exact (hft f hfinite).ok
    | _ => simp [Json.sqlLiteral]
  | isNull col b => exact fun table => .isNull _ trivial
  | and ps ih =>
    intro table
    rw [jsonExpr,jsonExprs_eq_map]
    exact at_all _ (List.forall_mem_map.mpr fun q hq => ih q hq table)
  | or ps ih =>
    intro table
    rw [jsonExpr,jsonExprs_eq_map]
    exact at_any _ (List.forall_mem_map.mpr fun q hq => ih q hq table)
  | not p ih => exact fun table => at_not (ih table)
  | inSubquery col negated inner project where_ ih =>
    intro table
    rw [jsonExpr]
    cases where_ with
    | none => exact .inSelect _ _ _ _ trivial
    | some w => exact .inSelectWhere _ _ _ _ trivial (.ofConjunction (.ofNegation (.ofTest (ih w rfl inner))))

end PredicateJson

lemma leafOp_comparator (op : LeafOp) : Comparator.leafOp (comparator op) = op := by cases op <;> rfl

/-- A number is no placeholder. -/
lemma compareTruth_number {col : String} {idx : ℕ} (hcol : t.columnIndex col = .ok idx) (op : LeafOp) (s : String) :
    pg.compareTruth t row (.plain (.column col) []) op (numberOperand s) =
      pg.inlineTruth t row idx op (numberOperand s) := by
  have hatom : ∀ cs, ∃ x, numberAtom cs = .number x ∨ numberAtom cs = .bare x := by
    intro cs
    rw [numberAtom]
    split
    · exact ⟨_,.inl rfl⟩
    · exact ⟨_,.inr rfl⟩
  rw [numberOperand]
  split
  · next cs h =>
    obtain ⟨x,hx | hx⟩ := hatom cs <;> simp only [hx,Postgres.compareTruth,hcol]
  · next h =>
    obtain ⟨x,hx | hx⟩ := hatom s.toList <;> simp only [hx,Postgres.compareTruth,hcol]

/-- A leaf is read as the comparison that it writes. -/
lemma truth_leafExpr {col : String} {idx : ℕ} (hcol : t.columnIndex col = .ok idx) (op : LeafOp) (lit : SqlLiteral)
    {known : Option String} {collated : Bool} (hunknown : known = none → collated = false)
    (hknown : known ≠ none → collated = t.isCollatableText idx) :
    pg.truth t row select (leafExpr col collated op known lit) = pg.written t row idx op known lit := by
  cases lit with
  | null => simp only [leafExpr,Postgres.truth,leafOp_comparator,Postgres.compareTruth,hcol]; rfl
  | bool b => simp only [leafExpr,Postgres.truth,leafOp_comparator,Postgres.compareTruth,hcol]; rfl
  | number s => simp only [leafExpr,Postgres.truth,leafOp_comparator,compareTruth_number hcol]; rfl
  | text s =>
    cases known with
    | none =>
      rw [hunknown rfl]
      simp only [leafExpr,Postgres.truth,leafOp_comparator,Bool.and_false,Bool.false_eq_true,if_false,
        List.nil_append,Postgres.compareTruth,hcol]
      rfl
    | some type =>
      rw [hknown (Option.some_ne_none type)]
      cases h : op.isOrdering && t.isCollatableText idx <;>
        simp only [leafExpr,Postgres.truth,Postgres.written,leafOp_comparator,h,Bool.false_eq_true,if_false,if_true,
          Postgres.compareTruth,hcol]

/-- A row of the table: a NULL, or a value of the column's type, in each of its columns. -/
def PgTable.Stores (t : PgTable) (row : Row) : Prop :=
  ∀ idx, idx < t.columns.length → row.cell idx = .null ∨ (row.cell idx).HasType (t.columnType idx)

/-- `NoSubqueries`. -/
def noSubqueries : SubqueryCollector := fun _ _ _ => .error "subqueries are not supported here"

lemma idxOf?_of_columnIndex {ts : TableSchema} {col : String} {idx : ℕ} (h : ts.columnIndex col = .ok idx) :
    (ts.columns.map (·.1)).idxOf? col = some idx := by
  rw [TableSchema.columnIndex] at h
  split at h
  · next i hi => rw [hi,Except.ok.inj h]
  · cases h

lemma columnIndex_spec {ts : TableSchema} {col : String} {idx : ℕ} (h : ts.columnIndex col = .ok idx) :
    idx < ts.columns.length ∧ (ts.columns.getD idx ("",.text)).1 = col := by
  obtain ⟨hlt,hname,-⟩ := List.idxOf?_eq_some_iff.mp (idxOf?_of_columnIndex h)
  have hlt' : idx < ts.columns.length := by simpa using hlt
  rw [List.getD_eq_getElem?_getD,List.getElem?_eq_getElem hlt',Option.getD_some]
  exact ⟨hlt',by simpa using hname⟩

lemma isCollatableText_of_unknown {idx : ℕ} (h : t.pgTypeAt idx = none) : t.isCollatableText idx = false := by
  rw [PgTable.isCollatableText,h]
  split <;> rfl

/-- The native type of a column, where the schemas at hand have the table. -/
def knownType (schemas : String → Option PgTable) (t : PgTable) (idx : ℕ) : Option String :=
  (schemas t.table).bind (·.pgTypeAt idx)

lemma knownType_spec {schemas : String → Option PgTable}
    (hschemas : schemas t.table = none ∨ schemas t.table = some t) {col : String} {idx : ℕ}
    (hcol : t.columnIndex col = .ok idx) : pgTypeIn schemas t.table col = knownType schemas t idx ∧
      (knownType schemas t idx = none → collatableIn schemas t.table col = false) ∧
      (knownType schemas t idx ≠ none → collatableIn schemas t.table col = t.isCollatableText idx) := by
  have hidx : (t.columns.map (·.1)).idxOf? col = some idx := idxOf?_of_columnIndex hcol
  rcases hschemas with h | h
  · simp [pgTypeIn,knownType,collatableIn,h]
  · simp only [pgTypeIn,knownType,collatableIn,h,Option.bind_some,PgTable.pgTypeOf,hidx,Option.map_some,
      Option.getD_some,implies_true,and_true,true_and]
    exact isCollatableText_of_unknown

lemma truth_isNull {col : String} {idx : ℕ} (hcol : t.columnIndex col = .ok idx) (b : Bool) (ev : SubqueryEval) :
    pg.truth t row select (.isNull (.plain (.column col) []) (!b)) =
      some ((CompiledPredicate.isNull idx b).evalCtx row ev).truth := by
  have hcell : Postgres.columnOf t row (.plain (.column col) []) = some (row.cell idx) := by
    rw [Postgres.columnOf,Postgres.cellOf,hcol]
    rfl
  rw [Postgres.truth,hcell,CompiledPredicate.evalCtx,Tri.truth_fromBool,Option.map_some]
  cases b <;> simp

namespace CompiledPredicate
variable {parseF64 : String → Option OrderedFloat} {ts : TableSchema} {collector : SubqueryCollector}

lemma compile_leaf {col : String} {op : LeafOp} {value : Literal} {c : CompiledPredicate}
    (h : compileWith parseF64 ts collector (.leaf col op value) = .ok c) : ∃ idx v, ts.columnIndex col = .ok idx ∧
      Value.literalFromJson parseF64 value.json (ts.columnType idx) = .ok v ∧ c = .cmp idx op v := by
  simp only [compileWith,bind_eq_ok] at h
  obtain ⟨idx,hidx,v,hv,h⟩ := h
  exact ⟨idx,v,hidx,hv,(Except.ok.inj h).symm⟩

lemma compile_isNull {col : String} {b : Bool} {c : CompiledPredicate}
    (h : compileWith parseF64 ts collector (.isNull col b) = .ok c) :
    ∃ idx, ts.columnIndex col = .ok idx ∧ c = .isNull idx b := by
  simp only [compileWith,bind_eq_ok] at h
  obtain ⟨idx,hidx,h⟩ := h
  exact ⟨idx,hidx,(Except.ok.inj h).symm⟩

lemma compile_inSubquery {col : String} {negated : Bool} {inner project : String} {where_ : Option PredicateJson}
    {c : CompiledPredicate}
    (h : compileWith parseF64 ts collector (.inSubquery col negated inner project where_) = .ok c) :
    ∃ idx sig, ts.columnIndex col = .ok idx ∧ collector inner project where_ = .ok sig ∧
      c = .inSubquery idx sig negated := by
  simp only [compileWith,bind_eq_ok] at h
  obtain ⟨idx,hidx,sig,hsig,h⟩ := h
  exact ⟨idx,sig,hidx,hsig,(Except.ok.inj h).symm⟩

/-- What is compiled without subqueries is emitted. -/
lemma emits_of_compile {t : PgTable} (p : PredicateJson) :
    ∀ c, compileWith parseF64 t.toTableSchema noSubqueries p = .ok c → ∀ odd, ∀ l ∈ leaves odd c, l.2.Emits t := by
  induction p using PredicateJson.induction_on with
  | leaf col op value =>
    intro c h odd l hl
    obtain ⟨idx,v,-,-,rfl⟩ := compile_leaf h
    obtain rfl := List.mem_singleton.mp hl
    exact compileWith_cmp h
  | isNull col b =>
    intro c h odd l hl
    obtain ⟨idx,hcol,rfl⟩ := compile_isNull h
    obtain rfl := List.mem_singleton.mp hl
    exact (columnIndex_spec hcol).1
  | inSubquery col negated inner project where_ _ =>
    intro c h
    obtain ⟨_,_,-,h,-⟩ := compile_inSubquery h
    cases h
  | and ps ih =>
    intro c h odd l hl
    obtain ⟨rfl,hps⟩ := PredicateJson.compile_and h
    obtain ⟨d,hd,hl⟩ := (mem_leavesList odd _ l).mp hl
    obtain ⟨q,hq,rfl⟩ := List.mem_map.mp hd
    exact ih q hq _ (hps q hq) odd l hl
  | or ps ih =>
    intro c h odd l hl
    obtain ⟨rfl,hps⟩ := PredicateJson.compile_or h
    obtain ⟨d,hd,hl⟩ := (mem_leavesList odd _ l).mp hl
    obtain ⟨q,hq,rfl⟩ := List.mem_map.mp hd
    exact ih q hq _ (hps q hq) odd l hl
  | not p ih =>
    intro c h odd
    obtain ⟨rfl,hp⟩ := PredicateJson.compile_not h
    exact ih _ hp (!odd)

lemma readAs_inSubquery {S : Assignment} (odd : Bool) (idx : ℕ) (sig : SubquerySig) (negated : Bool) :
    Formula.ReadAs odd ((inSubquery idx sig negated).evalCtx row S.eval).truth
      (some ((inSubquery idx sig negated).sqlEval row S)) False (Misread row S odd (.inSubquery idx sig negated)) := by
  refine ⟨iff_of_false nofun id,?_⟩
  rintro u ⟨⟩
  rw [← agrees_inSubquery,agrees_iff_shows]
  exact iff_comm

end CompiledPredicate

/-- A way to write a predicate: how a leaf is written, the literal of a comparison with a column, and the native type
that the column is known to have. -/
structure Emitter where
  leaf : PredicateJson → Expr String
  literal : Literal → Value → SqlLiteral
  known : ℕ → Option String

/-- `predicate_json_to_sql` writes the literals of the request. -/
def Emitter.json (ft : FloatText) (schemas : String → Option PgTable) (t : PgTable) : Emitter where
  leaf := jsonExpr ft schemas t.table
  literal value _ := value.json.sqlLiteral ft
  known := knownType schemas t

/-- `predicate_to_sql` writes the values that they are compiled to. -/
def Emitter.compiled (parseF64 : String → Option OrderedFloat) (t : PgTable) : Emitter where
  leaf l := exprOf t (PredicateJson.compiled parseF64 t.toTableSchema noSubqueries l)
  literal _ v := v.sqlLiteral
  known := t.pgTypeAt

namespace PredicateJson
section
variable (pg t row select) (parseF64 : String → Option OrderedFloat) (collector : SubqueryCollector) (S : Assignment)
  (e : Emitter)

/-- A leaf that shows otherwise in Postgres than to the evaluator: a comparison, or a subquery and its NULLs. -/
def Misread (odd : Bool) : PredicateJson → Prop
  | .leaf col op value => ∃ idx v, t.columnIndex col = .ok idx ∧
    Value.literalFromJson parseF64 value.json (t.columnType idx) = .ok v ∧
      pg.Misread t row odd idx op (e.known idx) v (e.literal value v)
  | .inSubquery col negated inner project where_ => ∃ idx sig, t.columnIndex col = .ok idx ∧
    collector inner project where_ = .ok sig ∧ CompiledPredicate.Misread row S odd (.inSubquery idx sig negated)
  | _ => False

/-- A comparison for which Postgres refuses the query. -/
def Refused : PredicateJson → Prop
  | .leaf col op value => ∃ idx v, t.columnIndex col = .ok idx ∧
    Value.literalFromJson parseF64 value.json (t.columnType idx) = .ok v ∧
      pg.Refused t row idx op (e.known idx) (e.literal value v)
  | _ => False

/-- The leaves that are neither refused nor misread decide in SQL's logic whether the predicate is TRUE, as `b` says:
any other leaf counts for nothing beside a FALSE one in an AND, or beside a TRUE one in an OR. -/
def Settled (p : PredicateJson) (b : Bool) : Prop :=
  p.formula.Settled (fun odd l => ¬l.Refused pg t row parseF64 e ∧ ¬l.Misread pg t row parseF64 collector S e odd)
    (fun l => (pg.truth t row select (e.leaf l)).getD .maybe) false b

/-- The misread leaves all show in Postgres and are missed, or none of them shows and all are taken to. -/
def OneSided (p : PredicateJson) : Prop :=
  p.formula.OneSided (fun odd l => ¬l.Refused pg t row parseF64 e ∧ ¬l.Misread pg t row parseF64 collector S e odd)
    (fun l => (pg.truth t row select (e.leaf l)).getD .maybe) false

/-- When a row is selected as it is included: where the predicate is settled, always but for a query that is refused
instead of selecting it; and where none of its leaves is refused and the misread ones err in one direction, only if it
is settled. -/
structure AgreesWhen (p : PredicateJson) (agrees : Prop) : Prop where
  of_settled : ∀ b, p.Settled pg t row select parseF64 collector S e b →
    (agrees ↔ (b = true → ∀ l ∈ p.leaves, ¬l.2.Refused pg t row parseF64 e))
  iff_settled : (∀ l ∈ p.leaves, ¬l.2.Refused pg t row parseF64 e) →
    p.OneSided pg t row select parseF64 collector S e →
      (agrees ↔ ∃ b, p.Settled pg t row select parseF64 collector S e b)

end

variable {parseF64 : String → Option OrderedFloat} {collector : SubqueryCollector} {S : Assignment} {ft : FloatText}
  {e : Emitter}

/-- A predicate is selected as it is included where its leaves are read so. -/
theorem agreesWhen_of_leaves {p : PredicateJson} {c : CompiledPredicate}
    (hp : CompiledPredicate.compileWith parseF64 t.toTableSchema collector p = .ok c)
    (hleaves : ∀ l ∈ p.leaves, Formula.ReadAs l.1
      ((compiled parseF64 t.toTableSchema collector l.2).evalCtx row S.eval).truth
        (pg.truth t row select (e.leaf l.2)) (l.2.Refused pg t row parseF64 e)
          (l.2.Misread pg t row parseF64 collector S e l.1)) :
    p.AgreesWhen pg t row select parseF64 collector S e
      (pg.truth t row select (condition e.leaf p) = some .yes ↔ c.matchesCtx row S.eval = true) := by
  have hselects : pg.truth t row select (condition e.leaf p) = some .yes ↔
      ∃ u, (formula p).partialValue (fun l => pg.truth t row select (e.leaf l)) = some u ∧ Formula.Shows false u := by
    rw [truth_condition]
    exact ⟨fun h => ⟨_,h,rfl⟩,fun ⟨u,hu,h⟩ => hu.trans (congrArg some h)⟩
  have hmatches : c.matchesCtx row S.eval = true ↔ Formula.Shows false ((formula p).value
      fun l => ((compiled parseF64 t.toTableSchema collector l).evalCtx row S.eval).truth) := by
    rw [← truth_eq_value p c hp,CompiledPredicate.matchesCtx,decide_eq_true_iff]
    exact (Tri.truth_eq_yes _).symm
  rw [hselects,hmatches]
  exact ⟨fun b hb => Formula.agree_of_settled hleaves hb,fun hall hone => Formula.agree_iff_settled hleaves hall hone⟩

/-- Where no leaf is refused or misread, they agree. -/
lemma AgreesWhen.of_right {p : PredicateJson} {agrees : Prop}
    (h : p.AgreesWhen pg t row select parseF64 collector S e agrees)
    (hleaves : ∀ l ∈ p.leaves,
      ¬l.2.Refused pg t row parseF64 e ∧ ¬l.2.Misread pg t row parseF64 collector S e l.1) : agrees := by
  have hsettled : ∃ b, p.Settled pg t row select parseF64 collector S e b :=
    Formula.settled_of_right p.formula false hleaves
  obtain ⟨b,hb⟩ := hsettled
  exact (h.of_settled b hb).mpr fun _ l hl => (hleaves l hl).1

/-- The comparison of a leaf, by either emitter. -/
lemma readAs_leaf (hrow : t.Stores row) {col : String} {op : LeafOp} {value : Literal} {idx : ℕ} {v : Value}
    {collated : Bool} (hcol : t.columnIndex col = .ok idx)
    (hv : Value.literalFromJson parseF64 value.json (t.columnType idx) = .ok v)
    (hunknown : e.known idx = none → collated = false)
    (hknown : e.known idx ≠ none → collated = t.isCollatableText idx)
    (hw : WrittenAs pg (t.columnType idx) v (e.literal value v)) (odd : Bool) (ev : SubqueryEval) :
    Formula.ReadAs odd ((CompiledPredicate.cmp idx op v).evalCtx row ev).truth
      (pg.truth t row select (leafExpr col collated op (e.known idx) (e.literal value v)))
      ((PredicateJson.leaf col op value).Refused pg t row parseF64 e)
      ((PredicateJson.leaf col op value).Misread pg t row parseF64 collector S e odd) := by
  rw [truth_leafExpr hcol op _ hunknown hknown,CompiledPredicate.evalCtx]
  have hread : Formula.ReadAs odd (cmp (row.cell idx) op v).truth
      (pg.written t row idx op (e.known idx) (e.literal value v)) _ _ :=
    Postgres.readAs_written (hrow idx (columnIndex_spec hcol).1) hw
  have hone : ∀ P : ℕ → Value → Prop, (∃ idx v, t.columnIndex col = .ok idx ∧
      Value.literalFromJson parseF64 value.json (t.columnType idx) = .ok v ∧ P idx v) ↔ P idx v := by
    refine fun P => ⟨?_,fun h => ⟨idx,v,hcol,hv,h⟩⟩
    rintro ⟨idx',v',hcol',hv',h⟩
    obtain rfl := Except.ok.inj (hcol.symm.trans hcol')
    obtain rfl := Except.ok.inj (hv.symm.trans hv')
    exact h
  exact ⟨hread.refused.trans (hone fun idx v => pg.Refused t row idx op (e.known idx) (e.literal value v)).symm,
    fun u hu => (hread.misread u hu).trans
      (not_congr (hone fun idx v => pg.Misread t row odd idx op (e.known idx) v (e.literal value v)).symm)⟩

/-- A leaf that is read as it is evaluated. -/
lemma readAs_self (odd : Bool) (u : Truth) : Formula.ReadAs odd u (some u) False False :=
  ⟨iff_of_false nofun id,by rintro _ ⟨⟩; exact iff_of_true Iff.rfl id⟩

/-- A leaf of a request's WHERE. -/
lemma readAs_json (hft : ∀ f : OrderedFloat, f.isFinite = true → Spelled (String.ofList (ft.text f)))
    (hrow : t.Stores row) {schemas : String → Option PgTable}
    (hschemas : schemas t.table = none ∨ schemas t.table = some t)
    (hselect : ∀ inner project where_ sig, collector inner project where_ = .ok sig → S sig =
      select project (tableSchemaPart inner) (tableNamePart inner) (innerExpr ft schemas inner where_))
    {l : PredicateJson} (hleaf : formula l = .leaf l) {c : CompiledPredicate}
    (hc : CompiledPredicate.compileWith parseF64 t.toTableSchema collector l = .ok c)
    (hl : ∀ col op value idx, l = .leaf col op value → t.columnIndex col = .ok idx → t.columnType idx = .float →
      pg.ReadsLiteral ft value) (odd : Bool) :
    Formula.ReadAs odd (c.evalCtx row S.eval).truth (pg.truth t row select (jsonExpr ft schemas t.table l))
      (l.Refused pg t row parseF64 (.json ft schemas t))
      (l.Misread pg t row parseF64 collector S (.json ft schemas t) odd) := by
  cases l with
  | leaf col op value =>
    obtain ⟨idx,v,hcol,hv,rfl⟩ := CompiledPredicate.compile_leaf hc
    obtain ⟨htype,hunknown,hknown⟩ := knownType_spec hschemas hcol
    have hw := writtenAs_json hft (hl col op value idx rfl hcol) hv
    rw [jsonExpr,htype]
    exact readAs_leaf (e := .json ft schemas t) hrow hcol hv hunknown hknown hw odd _
  | isNull col b =>
    obtain ⟨idx,hcol,rfl⟩ := CompiledPredicate.compile_isNull hc
    rw [jsonExpr,truth_isNull hcol b S.eval]
    exact readAs_self odd _
  | inSubquery col negated inner project where_ =>
    obtain ⟨idx,sig,hcol,hsig,rfl⟩ := CompiledPredicate.compile_inSubquery hc
    have hcell : Postgres.columnOf t row (.plain (.column col) []) = some (row.cell idx) := by
      rw [Postgres.columnOf,Postgres.cellOf,hcol]
      rfl
    have htruth : pg.truth t row select (jsonExpr ft schemas t.table (.inSubquery col negated inner project where_)) =
        some ((CompiledPredicate.inSubquery idx sig negated).sqlEval row S) := by
      have hset := hselect inner project where_ sig hsig
      rw [jsonExpr,CompiledPredicate.sqlEval]
      cases where_ with
      | none =>
        rw [innerExpr] at hset ⊢
        simp only [Postgres.truth,hcell,Option.map_some,← hset]
        rfl
      | some w =>
        rw [innerExpr] at hset ⊢
        simp only [Postgres.truth,hcell,Option.map_some,← hset]
        rfl
    have hread : Formula.ReadAs odd ((CompiledPredicate.inSubquery idx sig negated).evalCtx row S.eval).truth _ _ _ :=
      CompiledPredicate.readAs_inSubquery odd idx sig negated
    rw [htruth]
    refine ⟨hread.refused,fun u hu => (hread.misread u hu).trans (not_congr ?_)⟩
    constructor
    · exact fun h => ⟨idx,sig,hcol,hsig,h⟩
    · rintro ⟨idx',sig',hcol',hsig',h⟩
      obtain rfl := Except.ok.inj (hcol.symm.trans hcol')
      obtain rfl := Except.ok.inj (hsig.symm.trans hsig')
      exact h
  | and ps => cases ps <;> cases hleaf
  | or ps => cases ps <;> cases hleaf
  | not p => cases hleaf

/-- A leaf of a compiled WHERE. -/
lemma readAs_compiled (hdouble : ∀ f : OrderedFloat, f.isFinite = true → pg.Reads f.toText f)
    (hrow : t.Stores row) {l : PredicateJson} (hleaf : formula l = .leaf l) {c : CompiledPredicate}
    (hc : CompiledPredicate.compileWith parseF64 t.toTableSchema noSubqueries l = .ok c) (odd : Bool) :
    Formula.ReadAs odd (c.evalCtx row S.eval).truth (pg.truth t row select (exprOf t c))
      (l.Refused pg t row parseF64 (.compiled parseF64 t))
      (l.Misread pg t row parseF64 noSubqueries S (.compiled parseF64 t) odd) := by
  cases l with
  | leaf col op value =>
    obtain ⟨idx,v,hcol,hv,rfl⟩ := CompiledPredicate.compile_leaf hc
    have hw : WrittenAs pg (t.columnType idx) v v.sqlLiteral := writtenAs_value hdouble (literalFromJson_hasType hv)
      fun i hi => literalFromJson_range (hi ▸ hv)
    rw [exprOf,(columnIndex_spec hcol).2]
    exact readAs_leaf (e := .compiled parseF64 t) hrow hcol hv isCollatableText_of_unknown (fun _ => rfl) hw odd _
  | isNull col b =>
    obtain ⟨idx,hcol,rfl⟩ := CompiledPredicate.compile_isNull hc
    rw [exprOf,(columnIndex_spec hcol).2,truth_isNull hcol b S.eval]
    exact readAs_self odd _
  | inSubquery col negated inner project where_ =>
    obtain ⟨_,_,-,h,-⟩ := CompiledPredicate.compile_inSubquery hc
    cases h
  | and ps => cases ps <;> cases hleaf
  | or ps => cases ps <;> cases hleaf
  | not p => cases hleaf

end PredicateJson

variable (pg t row select) in
/-- The rows that a query selects; without a WHERE all of them. -/
def Postgres.Selects : Option (String × List String) → Prop
  | none => True
  | some (text,params) => pg.IsTrue t row select 1 text params

variable (pg row select) in
/-- `predicate_to_sql` selects what the condition of the predicate selects. -/
lemma selects_predicateToSql {parseF64 : String → Option OrderedFloat} {p : PredicateJson} {c : CompiledPredicate}
    (hc : CompiledPredicate.compileWith parseF64 t.toTableSchema noSubqueries p = .ok c) :
    ∃ sql, predicateToSql c t = .ok sql ∧
      (pg.Selects t row select sql ↔ pg.truth t row select (exprOf t c) = some .yes) := by
  have hbuild := CompiledPredicate.build_eq c false (CompiledPredicate.emits_of_compile p c hc false) []
  cases c with
  | matchAll => exact ⟨none,rfl,iff_of_true trivial rfl⟩
  | _ =>
    rw [predicateToSql,hbuild]
    · exact ⟨_,rfl,isTrue_textFrom (exprOf_at _) 1⟩
    · simp

/-- `predicate_json_to_sql` selects what the condition of the predicate selects. -/
lemma isTrue_predicateJsonToSql {ft : FloatText}
    (hft : ∀ f : OrderedFloat, f.isFinite = true → Spelled (String.ofList (ft.text f))) (start : ℕ)
    (schemas : String → Option PgTable) (p : PredicateJson) (table : String) :
    pg.IsTrue t row select start (predicateJsonToSql ft start schemas p table).1
        (predicateJsonToSql ft start schemas p table).2 ↔
      pg.truth t row select (jsonExpr ft schemas table p) = some .yes := by
  rw [predicateJsonToSql,PredicateJson.buildJson_eq]
  exact isTrue_textFrom (PredicateJson.jsonExpr_at hft schemas p table) start

/-- Numbers in the WHERE of a predicate: the JSON writer spells a double as a numeral, and Postgres reads a numeral as
the double that was written, by `f64`'s `Display` or as the literal of the request. -/
structure Postgres.ReadsNumbers (pg : Postgres) (ft : FloatText) (t : PgTable) (p : PredicateJson) : Prop where
  spelled : ∀ f : OrderedFloat, f.isFinite = true → Spelled (String.ofList (ft.text f))
  double : ∀ f : OrderedFloat, f.isFinite = true → pg.Reads f.toText f
  literal : ∀ l ∈ p.leaves, ∀ col op value idx, l.2 = .leaf col op value → t.columnIndex col = .ok idx →
    t.columnType idx = .float → pg.ReadsLiteral ft value

/-- Beside TRUE in an OR a subquery that is misread for a NULL does not count. -/
example {idx : ℕ} {collector : SubqueryCollector} {S : Assignment} {ft : FloatText}
    {schemas : String → Option PgTable} {parseF64 : String → Option OrderedFloat}
    (hid : t.columnIndex "id" = .ok idx) (hcell : row.cell idx ≠ .null) :
    (PredicateJson.or [.isNull "id" false,.inSubquery "name" true "public.known" "name" none]).Settled pg t row select
      parseF64 collector S (.json ft schemas t) true := by
  have htruth : pg.truth t row select (jsonExpr ft schemas t.table (.isNull "id" false)) = some .yes := by
    rw [jsonExpr,truth_isNull hid false (Assignment.eval S),CompiledPredicate.evalCtx]
    simp [hcell]
  refine .inl ⟨⟨id,id⟩,iff_of_true ?_ rfl⟩
  change (pg.truth t row select (jsonExpr ft schemas t.table (.isNull "id" false))).getD .maybe = .yes
  rw [htruth]
  rfl

end

open Classical in
/-- A Postgres that reads what `Display` writes of a double, and has one type besides the engine's, of texts whose case
does not count. -/
noncomputable def Postgres.sample : Postgres where
  float8 s := if h : ∃ f : OrderedFloat, f.toText = s then some h.choose else none
  float8Text := OrderedFloat.toText
  input _ _ := none
  dangling _ _ := none
  Native := String
  stored row idx := match row.cell idx with
    | .text s => s
    | _ => ""
  text _ s := s
  supports type op := type == "citext" && op != .like
  reads _ _ b := match b with
    | .plain (.param s) [] => some (some s)
    | _ => none
  order _ _ a b := compare a.toLower b.toLower
  likes _ _ _ := none

lemma Postgres.textAnswer_like (pg : Postgres) {c s : String} (hs : danglingEscape s.toList = false)
    (h : EscapedLike s.toList c.toList) : pg.textAnswer c .like s = some true := by
  rw [textAnswer,if_pos rfl,likeText,hs]
  simp [h]

lemma Postgres.sample_reads (f : OrderedFloat) : sample.Reads f.toText f := by
  have h : ∃ g : OrderedFloat, g.toText = f.toText := ⟨f,rfl⟩
  exact ⟨h.choose,dif_pos h,OrderedFloat.toText_inj h.choose_spec⟩

lemma spelled_positional (f : OrderedFloat) : Spelled (String.ofList (FloatText.positional.text f)) := by
  have hnum := positional_numeral (if f.magnitude = 0 then (0,-1) else
    Binary64.withPoint (Binary64.shortest f.magnitude))
  have htext : FloatText.positional.text f =
      (if f.isNegative then ['-'] else []) ++ Binary64.pointed f.magnitude := rfl
  refine ⟨_,hnum.1,hnum.2,?_⟩
  rw [String.toList_ofList,htext,Binary64.pointed]
  split
  · exact .inr rfl
  · exact .inl rfl

namespace PgTable

lemma names_ids : (([("id",.int),("name",.text)] : List (String × ColumnType)).map (·.1)).Nodup := by simp

lemma names_key : ∀ i ∈ [0],i < ([("id",.int),("name",.text)] : List (String × ColumnType)).length := by simp

/-- A table of names. -/
def names : PgTable where
  table := "public.names"
  columns := [("id",.int),("name",.text)]
  pkCols := [0]
  names_nodup := names_ids
  pk_ne_nil := TableSchema.sample.pk_ne_nil
  pk_lt := names_key
  pgTypes := [some "int8",some "text"]

end PgTable

/-- The names that begin with an a, of those with a number among the known ones. -/
def sampleNames : PredicateJson :=
  .and [.leaf "name" .like ⟨.string "a%",rfl⟩,.inSubquery "id" false "public.known" "id" none]

lemma names_columns {idx : ℕ} (h : idx < PgTable.names.columns.length) : idx = 0 ∨ idx = 1 := by
  change idx < 2 at h
  omega

lemma names_stores : PgTable.names.Stores ⟨[.int 1,.text "a_b"]⟩ := by
  intro idx h
  rcases names_columns h with rfl | rfl
  · exact .inr trivial
  · exact .inr trivial

lemma names_numbers (p : PredicateJson) : Postgres.sample.ReadsNumbers .positional .names p := by
  refine ⟨fun f _ => spelled_positional f,fun f _ => Postgres.sample_reads f,?_⟩
  intro l _ col op value idx _ hcol hfloat
  rcases names_columns (columnIndex_spec hcol).1 with rfl | rfl
  · cases hfloat
  · cases hfloat

end ElectricCircuits
