import ElectricCircuits.CanonicalSound

/-! Which COUNT aggregates the group counts of a table can serve: the filter of an aggregate is taken apart
into constants for the group columns, and a row counts when its group has one of them in each. -/
namespace ElectricCircuits
open ThreeValued

/-- For each group column the constants that it may have, or no constraint. -/
abbrev Constraints := List (Option (List Value))

/-- The group key of a row. -/
def project (row : Row) (cols : List ℕ) : Row := ⟨cols.map row.cell⟩

def Constraints.groupMatches (cs : Constraints) (group : Row) : Bool :=
  cs.zipIdx.all fun c =>
    match c.1 with
    | none => true
    | some keys => (group.cells[c.2]?).any fun v => keys.contains v

/-- The conjuncts of a filter; without a filter there are none. -/
def conjuncts : Option PredicateJson → List PredicateJson
  | none => []
  | some (.and ps) => ps
  | some p => [p]

section
variable (parseF64 : String → Option OrderedFloat) (ts : TableSchema)

/-- The loop over the disjuncts, all of them equalities on one column. -/
def planOr (idx : Option ℕ) (keys : List Value) : List PredicateJson → Option (ℕ × List Value)
  | [] => idx.map (·,keys)
  | .leaf col .eq value :: or => do
    let i ← (ts.columnIndex col).toOption
    if idx.getD i ≠ i then none
    else
      let v ← (Value.literalFromJson parseF64 value.json (ts.columnType i)).toOption
      planOr (some i) (keys ++ [v]) or
  | _ => none

/-- The column and the constants of one conjunct. -/
def planChild : PredicateJson → Option (ℕ × List Value)
  | .leaf col .eq value => do
    let i ← (ts.columnIndex col).toOption
    let v ← (Value.literalFromJson parseF64 value.json (ts.columnType i)).toOption
    return (i,[v])
  | .or ps => if ps.isEmpty then none else planOr parseF64 ts none [] ps
  | _ => none

/-- The loop over the conjuncts: each constrains a group column that no other one does. -/
def planChildren (groupCols : List ℕ) (constraints : Constraints) :
    List PredicateJson → Option Constraints
  | [] => some constraints
  | child :: children => do
    let (idx,keys) ← planChild parseF64 ts child
    let pos ← groupCols.idxOf? idx
    if (constraints.getD pos none).isSome then none
    else planChildren groupCols (constraints.set pos (some keys)) children

def planCircuitAgg (where_ : Option PredicateJson) (groupCols : List ℕ) : Option Constraints :=
  planChildren parseF64 ts groupCols (List.replicate groupCols.length none) (conjuncts where_)

/-- The filter is TRUE on the row in SQL. -/
def Selects (collector : SubqueryCollector) (S : Assignment) (where_ : Option PredicateJson)
    (row : Row) : Prop :=
  ∀ p ∈ where_, ∃ q, CompiledPredicate.compileWith parseF64 ts collector p = .ok q ∧
    q.sqlEval row S = .yes

end

/-- An equality with NULL, on a column that is NULL in the row. -/
def EqualsNull (ts : TableSchema) (row : Row) : PredicateJson → Prop
  | .leaf col .eq value => value.json = .null ∧ ∃ i, ts.columnIndex col = .ok i ∧ row.cell i = .null
  | _ => False

/-- A conjunct that lists NULL among the constants of a column that is NULL in the row. -/
def ListsNull (ts : TableSchema) (row : Row) : PredicateJson → Prop
  | .or ps => ∃ p ∈ ps, EqualsNull ts row p
  | p => EqualsNull ts row p

/-- Some conjunct holds of the row only as far as NULL equals NULL, and every other one holds of it. -/
def ThroughNull (parseF64 : String → Option OrderedFloat) (ts : TableSchema)
    (collector : SubqueryCollector) (S : Assignment) (where_ : Option PredicateJson) (row : Row) : Prop :=
  (∃ c ∈ conjuncts where_, ListsNull ts row c) ∧
    ∀ c ∈ conjuncts where_, ListsNull ts row c ∨ Selects parseF64 ts collector S (some c) row

variable {parseF64 : String → Option OrderedFloat} {ts : TableSchema} {collector : SubqueryCollector}
  {S : Assignment} {row : Row}

/-- An equality on column `i` with the constant `v`. -/
def Equates (parseF64 : String → Option OrderedFloat) (ts : TableSchema) (p : PredicateJson) (i : ℕ)
    (v : Value) : Prop :=
  ∃ col value, p = .leaf col .eq value ∧ ts.columnIndex col = .ok i ∧
    Value.literalFromJson parseF64 value.json (ts.columnType i) = .ok v

/-- Only NULL is read as NULL. -/
lemma Value.literalFromJson_null {j : Json} {ty : ColumnType} {v : Value}
    (h : Value.literalFromJson parseF64 j ty = .ok v) : v = .null ↔ j = .null := by
  constructor
  · rintro rfl
    cases j with
    | null => rfl
    | string s =>
      cases ty with
      | text => cases h
      | int =>
        simp only [literalFromJson] at h
        split at h <;> cases h
      | float =>
        simp only [literalFromJson] at h
        split at h <;> cases h
      | bool =>
        simp only [literalFromJson] at h
        split_ifs at h <;> cases h
    | _ =>
      cases ty <;> simp only [literalFromJson,fromJson] at h <;> first | cases h | (split at h <;> cases h)
  · rintro rfl
    simpa [literalFromJson,fromJson,eq_comm] using h

lemma Except.toOption_eq_some {ε α : Type} {x : Except ε α} {a : α} :
    x.toOption = some a ↔ x = .ok a := by
  cases x <;> simp [Except.toOption]

lemma sqlCmp_eq_yes {cell v : Value} :
    sqlCmp cell .eq v = .yes ↔ cell ≠ .null ∧ (v == cell) = true := by
  rw [Value.beq_iff_code]
  by_cases hcell : cell = .null
  · simp [sqlCmp,hcell]
  · by_cases hv : v = .null
    · subst hv
      have hne : Value.null.code ≠ cell.code := fun he =>
        hcell ((Value.null_eqv cell).mp ((Value.eqv_iff_code _ _).mpr he))
      simp [sqlCmp,hne]
    · simp only [sqlCmp,hcell,hv,or_self,if_false,Truth.ofBool_eq_yes,decide_eq_true_eq,ne_eq,
        not_false_eq_true,true_and]
      exact eq_comm

lemma Equates.compile {p : PredicateJson} {i : ℕ} {v : Value} (h : Equates parseF64 ts p i v) :
    CompiledPredicate.compileWith parseF64 ts collector p = .ok (.cmp i .eq v) := by
  obtain ⟨col,value,rfl,hi,hv⟩ := h
  rw [CompiledPredicate.compileWith,bind_eq_ok]
  exact ⟨i,hi,bind_eq_ok.mpr ⟨v,hv,rfl⟩⟩

lemma Equates.equalsNull {p : PredicateJson} {i : ℕ} {v : Value} (h : Equates parseF64 ts p i v) :
    EqualsNull ts row p ↔ row.cell i = .null ∧ v = .null := by
  obtain ⟨col,value,rfl,hi,hv⟩ := h
  rw [EqualsNull,Value.literalFromJson_null hv,hi]
  constructor
  · rintro ⟨hj,i',hi',hcell⟩
    obtain rfl := Except.ok.inj hi'
    exact ⟨hcell,hj⟩
  · exact fun ⟨hcell,hj⟩ => ⟨hj,i,rfl,hcell⟩

/-- The disjuncts that the loop accepts, with their constants. -/
lemma planOr_eq_some {idx : Option ℕ} {keys keys' : List Value} {ps : List PredicateJson} {i : ℕ}
    (h : planOr parseF64 ts idx keys ps = some (i,keys')) : (∀ j ∈ idx, j = i) ∧
      ∃ vs, keys' = keys ++ vs ∧ List.Forall₂ (fun p v => Equates parseF64 ts p i v) ps vs := by
  induction ps generalizing idx keys with
  | nil =>
    obtain ⟨j,hj,he⟩ := Option.map_eq_some_iff.mp h
    obtain ⟨rfl,rfl⟩ := Prod.mk.inj he
    exact ⟨fun k hk => Option.mem_unique hk hj,[],by simp,.nil⟩
  | cons p ps ih =>
    unfold planOr at h
    split at h
    · cases ‹p :: ps = []›
    · rename_i col value or heq
      obtain ⟨rfl,rfl⟩ := List.cons.inj heq
      obtain ⟨k,hk,h⟩ := Option.bind_eq_some_iff.mp h
      split_ifs at h with hidx
      obtain ⟨v,hv,h⟩ := Option.bind_eq_some_iff.mp h
      obtain ⟨hki,vs,rfl,hall⟩ := ih h
      obtain rfl := hki k rfl
      refine ⟨fun j hj => ?_,v::vs,by simp,.cons ⟨col,value,rfl,?_,?_⟩ hall⟩
      · obtain rfl := Option.mem_def.mp hj
        simpa using hidx
      · exact Except.toOption_eq_some.mp hk
      · exact Except.toOption_eq_some.mp hv
    · cases h

lemma contains_iff {keys : List Value} {v : Value} :
    keys.contains v = true ↔ ∃ k ∈ keys, (k == v) = true := by
  rw [List.contains_iff_exists_mem_beq]
  exact exists_congr fun k => and_congr_right fun _ => ⟨BEq.symm,BEq.symm⟩

/-- The selection of a filter that compiles. -/
lemma selects_iff {p : PredicateJson} {q : CompiledPredicate}
    (h : CompiledPredicate.compileWith parseF64 ts collector p = .ok q) :
    Selects parseF64 ts collector S (some p) row ↔ q.sqlEval row S = .yes := by
  rw [Selects]
  constructor
  · intro hsel
    obtain ⟨q',hq',hyes⟩ := hsel p rfl
    rw [h] at hq'
    obtain rfl := Except.ok.inj hq'
    exact hyes
  · intro hyes p' hp'
    obtain rfl := Option.some.inj hp'
    exact ⟨q,h,hyes⟩

lemma Equates.selects {p : PredicateJson} {i : ℕ} {v : Value} (h : Equates parseF64 ts p i v) :
    Selects parseF64 ts collector S (some p) row ↔ row.cell i ≠ .null ∧ (v == row.cell i) = true := by
  rw [selects_iff h.compile,CompiledPredicate.sqlEval,sqlCmp_eq_yes]

lemma exists_forall₂_of_forall {α β : Type} {R : α → β → Prop} {xs : List α}
    (h : ∀ x ∈ xs, ∃ y, R x y) : ∃ ys, List.Forall₂ R xs ys := by
  induction xs with
  | nil => exact ⟨[],.nil⟩
  | cons x xs ih =>
    obtain ⟨⟨y,hy⟩,hxs⟩ := List.forall_mem_cons.mp h
    obtain ⟨ys,hys⟩ := ih hxs
    exact ⟨y::ys,.cons hy hys⟩

lemma forall_forall₂ {α β : Type} {R : α → β → Prop} {P : α → Prop} {Q : β → Prop} {xs : List α}
    {ys : List β} (h : List.Forall₂ R xs ys) (hPQ : ∀ x y, R x y → (P x ↔ Q y)) :
    (∀ x ∈ xs, P x) ↔ ∀ y ∈ ys, Q y := by
  induction h with
  | nil => simp
  | cons hxy _ ih => simp [hPQ _ _ hxy,ih]

lemma exists_forall₂ {α β : Type} {R : α → β → Prop} {P : α → Prop} {Q : β → Prop} {xs : List α}
    {ys : List β} (h : List.Forall₂ R xs ys) (hPQ : ∀ x y, R x y → (P x ↔ Q y)) :
    (∃ x ∈ xs, P x) ↔ ∃ y ∈ ys, Q y := by
  induction h with
  | nil => simp
  | cons hxy _ ih => simp [hPQ _ _ hxy,ih]

/-- A conjunct that can be served is an equality, or equalities on one column. -/
lemma planChild_cases {p : PredicateJson} {i : ℕ} {keys : List Value}
    (h : planChild parseF64 ts p = some (i,keys)) :
    (∃ v, keys = [v] ∧ Equates parseF64 ts p i v) ∨
      ∃ ps, p = .or ps ∧ List.Forall₂ (fun p v => Equates parseF64 ts p i v) ps keys := by
  unfold planChild at h
  split at h
  · rename_i col value
    obtain ⟨k,hk,h⟩ := Option.bind_eq_some_iff.mp h
    obtain ⟨v,hv,h⟩ := Option.bind_eq_some_iff.mp h
    obtain ⟨rfl,rfl⟩ := Prod.mk.inj (Option.some.inj h)
    exact .inl ⟨v,rfl,col,value,rfl,Except.toOption_eq_some.mp hk,Except.toOption_eq_some.mp hv⟩
  · rename_i ps
    split_ifs at h
    obtain ⟨-,vs,rfl,hall⟩ := planOr_eq_some h
    exact .inr ⟨ps,rfl,hall⟩
  · cases h

lemma compile_or {ps : List PredicateJson} {i : ℕ} {keys : List Value}
    (h : List.Forall₂ (fun p v => Equates parseF64 ts p i v) ps keys) :
    CompiledPredicate.compileWith parseF64 ts collector (.or ps) =
      .ok (.or (keys.map fun v => .cmp i .eq v)) := by
  rw [CompiledPredicate.compileWith,bind_eq_ok]
  refine ⟨_,?_,rfl⟩
  rw [CompiledPredicate.compileAll_eq_ok,List.forall₂_map_right_iff]
  exact h.imp fun p v hp => hp.compile

lemma planChild_compile {p : PredicateJson} {c : ℕ × List Value}
    (h : planChild parseF64 ts p = some c) :
    ∃ q, CompiledPredicate.compileWith parseF64 ts collector p = .ok q := by
  rcases planChild_cases h with ⟨v,-,hp⟩ | ⟨ps,rfl,hall⟩
  · exact ⟨_,hp.compile⟩
  · exact ⟨_,compile_or hall⟩

/-- What the constants of a conjunct say of a row: with a cell that is not NULL the conjunct is TRUE, with
one that is NULL it only lists NULL. -/
lemma planChild_spec (collector : SubqueryCollector) (S : Assignment) (row : Row) {p : PredicateJson}
    {i : ℕ} {keys : List Value} (h : planChild parseF64 ts p = some (i,keys)) :
    (Selects parseF64 ts collector S (some p) row ↔
      row.cell i ≠ .null ∧ keys.contains (row.cell i) = true) ∧
    (ListsNull ts row p ↔ row.cell i = .null ∧ keys.contains (row.cell i) = true) := by
  rw [contains_iff]
  rcases planChild_cases h with ⟨v,rfl,hp⟩ | ⟨ps,rfl,hall⟩
  · have hlists : ListsNull ts row p ↔ EqualsNull ts row p := by
      obtain ⟨col,value,rfl,-,-⟩ := hp
      rfl
    refine ⟨by simpa using hp.selects,?_⟩
    rw [hlists,hp.equalsNull]
    refine and_congr_right fun hcell => ?_
    rw [hcell]
    simp only [List.mem_singleton,exists_eq_left]
    exact (Value.eqv_null v).symm
  · refine ⟨?_,?_⟩
    · rw [selects_iff (compile_or hall),CompiledPredicate.sqlEval,Truth.disj_eq_yes,
        CompiledPredicate.sqlEvals_eq_map,List.map_map]
      simp only [List.mem_map,exists_exists_and_eq_and,Function.comp,CompiledPredicate.sqlEval,
        sqlCmp_eq_yes]
      constructor
      · rintro ⟨v,hv,hcell,he⟩
        exact ⟨hcell,v,hv,he⟩
      · rintro ⟨hcell,v,hv,he⟩
        exact ⟨v,hv,hcell,he⟩
    · rw [ListsNull,exists_forall₂ hall fun p v hp => hp.equalsNull]
      constructor
      · rintro ⟨v,hv,hcell,rfl⟩
        exact ⟨hcell,.null,hv,by simp [hcell]⟩
      · rintro ⟨hcell,v,hv,he⟩
        rw [hcell] at he
        exact ⟨v,hv,hcell,(Value.eqv_null v).mp he⟩

/-- A row matches by its group when each constrained column has one of its constants. -/
lemma groupMatches_project {cs : Constraints} {cols : List ℕ} (hlen : cs.length = cols.length) :
    cs.groupMatches (project row cols) = true ↔
      ∀ (pos : ℕ) (keys : List Value) (i : ℕ), cs[pos]? = some (some keys) → cols[pos]? = some i →
        keys.contains (row.cell i) = true := by
  rw [Constraints.groupMatches,List.all_eq_true]
  constructor
  · intro h pos keys i hkeys hi
    have hpos := h (some keys,pos) (List.mem_zipIdx_iff_getElem?.mpr hkeys)
    simpa [project,hi] using hpos
  · rintro h ⟨c,pos⟩ hmem
    have hc : cs[pos]? = some c := List.mem_zipIdx_iff_getElem?.mp hmem
    cases c with
    | none => rfl
    | some keys =>
      have hlt : pos < cols.length := by
        rw [← hlen]
        exact (List.getElem?_eq_some_iff.mp hc).1
      simpa [project,hlt] using h pos keys cols[pos] hc (List.getElem?_eq_getElem hlt)

/-- The loop over the conjuncts adds the constants of each. -/
lemma planChildren_spec {cols : List ℕ} {cs out : Constraints} {ps : List PredicateJson}
    (h : planChildren parseF64 ts cols cs ps = some out) (hlen : cs.length = cols.length) (row : Row) :
    (∀ p ∈ ps, ∃ c, planChild parseF64 ts p = some c) ∧
    (out.groupMatches (project row cols) = true ↔ cs.groupMatches (project row cols) = true ∧
      ∀ p ∈ ps, ∀ i keys, planChild parseF64 ts p = some (i,keys) →
        keys.contains (row.cell i) = true) := by
  induction ps generalizing cs with
  | nil =>
    obtain rfl := Option.some.inj h
    simp
  | cons p ps ih =>
    obtain ⟨⟨i,keys⟩,hchild,h⟩ := Option.bind_eq_some_iff.mp h
    obtain ⟨pos,hpos,h⟩ := Option.bind_eq_some_iff.mp h
    split_ifs at h with hfree
    obtain ⟨hplans,hiff⟩ := ih h (by rw [List.length_set,hlen])
    obtain ⟨hlt,hcol,-⟩ := List.idxOf?_eq_some_iff.mp hpos
    have hlt' : pos < cs.length := hlen ▸ hlt
    have hset : Constraints.groupMatches (cs.set pos (some keys)) (project row cols) = true ↔
        cs.groupMatches (project row cols) = true ∧ keys.contains (row.cell i) = true := by
      rw [groupMatches_project (by rw [List.length_set,hlen]),groupMatches_project hlen]
      constructor
      · intro hall
        refine ⟨fun pos' keys' i' hkeys' hi' => hall pos' keys' i' ?_ hi',hall pos keys i ?_ ?_⟩
        · rw [List.getElem?_set_ne ?_,hkeys']
          rintro rfl
          simp [List.getD,hkeys'] at hfree
        · rw [List.getElem?_set_self hlt']
        · rw [List.getElem?_eq_getElem hlt,hcol]
      · rintro ⟨hall,hkeys⟩ pos' keys' i' hkeys' hi'
        by_cases hpp : pos = pos'
        · subst hpp
          rw [List.getElem?_set_self hlt'] at hkeys'
          rw [List.getElem?_eq_getElem hlt,hcol] at hi'
          obtain rfl := Option.some.inj (Option.some.inj hkeys')
          obtain rfl := Option.some.inj hi'
          exact hkeys
        · rw [List.getElem?_set_ne hpp] at hkeys'
          exact hall pos' keys' i' hkeys' hi'
    refine ⟨List.forall_mem_cons.mpr ⟨⟨_,hchild⟩,hplans⟩,?_⟩
    rw [hiff,hset,List.forall_mem_cons,and_assoc]
    simp [hchild]

lemma groupMatches_replicate (n : ℕ) (group : Row) :
    Constraints.groupMatches (List.replicate n none) group = true := by
  rw [Constraints.groupMatches,List.all_eq_true]
  rintro ⟨c,pos⟩ hmem
  obtain rfl : c = none := List.eq_of_mem_replicate (List.fst_mem_of_mem_zipIdx hmem)
  rfl

/-- A filter with a plan compiles, and selects a row when each of its conjuncts does. -/
lemma selects_iff_conjuncts {where_ : Option PredicateJson}
    (hplans : ∀ p ∈ conjuncts where_, ∃ c, planChild parseF64 ts p = some c) :
    Selects parseF64 ts collector S where_ row ↔
      ∀ p ∈ conjuncts where_, Selects parseF64 ts collector S (some p) row := by
  cases where_ with
  | none => simp [Selects,conjuncts]
  | some p =>
    cases p with
    | and ps =>
      have hcompile : ∃ qs, CompiledPredicate.compileAll parseF64 ts collector ps = .ok qs := by
        simp only [CompiledPredicate.compileAll_eq_ok]
        exact exists_forall₂_of_forall fun p hp => planChild_compile (hplans p hp).choose_spec
      obtain ⟨qs,hqs⟩ := hcompile
      have hand : CompiledPredicate.compileWith parseF64 ts collector (.and ps) = .ok (.and qs) := by
        rw [CompiledPredicate.compileWith,bind_eq_ok]
        exact ⟨qs,hqs,rfl⟩
      rw [selects_iff hand,CompiledPredicate.sqlEval,Truth.conj_eq_yes,CompiledPredicate.sqlEvals_eq_map,
        List.forall_mem_map]
      exact (forall_forall₂ (CompiledPredicate.compileAll_eq_ok.mp hqs) fun p q hq => selects_iff hq).symm
    | _ => simp [conjuncts]

/-- The group of a row matches when the filter is TRUE on it, or when it is matched through a NULL. -/
theorem groupMatches_iff {where_ : Option PredicateJson} {cols : List ℕ} {cs : Constraints}
    (h : planCircuitAgg parseF64 ts where_ cols = some cs) (row : Row) :
    cs.groupMatches (project row cols) = true ↔
      Selects parseF64 ts collector S where_ row ∨ ThroughNull parseF64 ts collector S where_ row := by
  obtain ⟨hplans,hiff⟩ := planChildren_spec h List.length_replicate row
  rw [hiff,selects_iff_conjuncts hplans]
  have hchild : ∀ p ∈ conjuncts where_,
      (∀ i keys, planChild parseF64 ts p = some (i,keys) → keys.contains (row.cell i) = true) ↔
        ListsNull ts row p ∨ Selects parseF64 ts collector S (some p) row := by
    intro p hp
    obtain ⟨⟨i,keys⟩,hc⟩ := hplans p hp
    obtain ⟨hsel,hnull⟩ := planChild_spec collector S row hc
    rw [hsel,hnull]
    constructor
    · intro hall
      have hkeys := hall i keys hc
      by_cases hcell : row.cell i = .null
      · exact .inl ⟨hcell,hkeys⟩
      · exact .inr ⟨hcell,hkeys⟩
    · rintro hor i' keys' hc'
      rw [hc] at hc'
      obtain ⟨rfl,rfl⟩ := Prod.mk.inj (Option.some.inj hc')
      exact hor.elim And.right And.right
  rw [groupMatches_replicate,eq_self_iff_true,true_and,forall₂_congr hchild]
  constructor
  · intro hall
    by_cases hnull : ∃ p ∈ conjuncts where_, ListsNull ts row p
    · exact .inr ⟨hnull,hall⟩
    · exact .inl fun p hp => (hall p hp).resolve_left fun hlists => hnull ⟨p,hp,hlists⟩
  · rintro (hsel | ⟨-,hall⟩)
    · exact fun p hp => .inr (hsel p hp)
    · exact hall

/-- A row that is matched through a NULL is not selected. -/
lemma ThroughNull.not_selects {where_ : Option PredicateJson} {cols : List ℕ} {cs : Constraints}
    (hplan : planCircuitAgg parseF64 ts where_ cols = some cs)
    (h : ThroughNull parseF64 ts collector S where_ row) :
    ¬Selects parseF64 ts collector S where_ row := by
  obtain ⟨hplans,-⟩ := planChildren_spec hplan List.length_replicate row
  obtain ⟨⟨p,hp,hlists⟩,-⟩ := h
  obtain ⟨⟨i,keys⟩,hc⟩ := hplans p hp
  obtain ⟨hsel,hnull⟩ := planChild_spec collector S row hc
  rw [selects_iff_conjuncts hplans]
  exact fun hall => (hsel.mp (hall p hp)).1 (hnull.mp hlists).1

end ElectricCircuits
