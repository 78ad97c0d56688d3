import ElectricCircuits.Access
import ElectricCircuits.CanonicalSound
import ElectricCircuits.Output

/-! Subquery templates: the literals of the top-level equalities are lifted out of an inner WHERE, nodes that
differ in them share the rest, and a row is dispatched to a node by its own values of the lifted columns. -/
namespace ElectricCircuits
open PredicateJson

/-- `SubqueryJson`. -/
structure SubqueryJson where
  table : String
  project : String
  where_ : Option PredicateJson

def Json.isNull : Json → Bool
  | .null => true
  | _ => false

namespace PredicateJson

mutual

/-- The conjuncts of a conjunct are top-level too. -/
def conjuncts : PredicateJson → List PredicateJson
  | .and ps => conjunctsAll ps
  | p => [p]

def conjunctsAll : List PredicateJson → List PredicateJson
  | [] => []
  | p :: ps => conjuncts p ++ conjunctsAll ps

end

/-- The equality that can be lifted, beside those that are. -/
def liftable (lifted : List (String × Literal)) : PredicateJson → Option (String × Literal)
  | .leaf col .eq value =>
    if !value.json.isNull && !lifted.any (·.1 == col) then some (col,value) else none
  | _ => none

/-- One conjunct is lifted, or stays in the residual. -/
def liftStep (acc : List (String × Literal) × List PredicateJson) (p : PredicateJson) :
    List (String × Literal) × List PredicateJson :=
  match liftable acc.1 p with
  | some l => (acc.1 ++ [l],acc.2)
  | none => (acc.1,acc.2 ++ [p])

end PredicateJson

variable (ft : FloatText) (parseF64 : String → Option OrderedFloat)

/-- The conjuncts of a WHERE in their canonical order, lifted one after the other. -/
def liftAll (where_ : Option PredicateJson) : List (String × Literal) × List PredicateJson :=
  match where_ with
  | none => ([],[])
  | some w =>
    (w.conjuncts.insertionSort fun p q => canonicalPred ft p ≤ canonicalPred ft q).foldl liftStep ([],[])

/-- The bind of a subquery, by the names of the columns. -/
def lifted (q : SubqueryJson) : List (String × Literal) :=
  (liftAll ft q.where_).1.insertionSort fun a b => a.1 ≤ b.1

def residual (q : SubqueryJson) : List PredicateJson := (liftAll ft q.where_).2

/-- `subquery_template`, its key. -/
def templateKey (q : SubqueryJson) : String :=
  q.table ++ "|" ++ q.project ++ "|P(" ++ ",".intercalate ((lifted ft q).map (·.1)) ++ ")|A(" ++
    sortJoin (canonicalPreds ft (residual ft q)) ++ ")"

/-- What the nodes of one template share, and the node of each bind. -/
structure TemplateGroup where
  innerTable : String
  projCol : ℕ
  residual : CompiledPredicate
  paramCols : List ℕ
  binds : AssocMap Row SubquerySig

/-- A node, as far as its evaluation goes. -/
structure SubqueryNode where
  sig : SubquerySig
  table : String
  projCol : ℕ
  pred : CompiledPredicate
  templateKey : String
  bind : Row

structure SubqueryRegistry where
  nodes : AssocMap SubquerySig SubqueryNode
  templates : AssocMap String TemplateGroup

/-- The column and the value that a lifted literal stands for. -/
def bindParam (ts : TableSchema) (l : String × Literal) : Except String (ℕ × Value) := do
  let idx ← ts.columnIndex l.1
  return (idx,← Value.literalFromJson parseF64 l.2.json (ts.columnType idx))

/-- The shared filter of a template; without conjuncts every row passes. -/
def compileResidual (ts : TableSchema) (ps : List PredicateJson) : Except String CompiledPredicate :=
  if ps.isEmpty then .ok .matchAll else CompiledPredicate.compileWith parseF64 ts (signOnly ft) (.and ps)

namespace TemplateGroup

/-- The node that a row belongs to, and its value there. -/
def target (g : TemplateGroup) (ev : SubqueryEval) (row : Row) (isNew : Bool) : Option (SubquerySig × Value) :=
  if isNew && g.residual.matchesCtx row ev then
    (g.binds.get? (keyOf row g.paramCols)).map fun sig => (sig,row.cell g.projCol)
  else none

end TemplateGroup

/-- The newest row of each key; a key that was only seen leaving keeps the row it left with. -/
def latestRowsByPk (ts : TableSchema) (delta : Delta) : AssocMap String (Row × Bool) :=
  delta.foldl (fun m (row,w) =>
    let pk := (ts.keyString row).toOption.getD ""
    if 0 < w then m.insert pk (row,true) else m.modify pk (row,false) id) .empty

namespace SubqueryRegistry

def empty : SubqueryRegistry := ⟨.empty,.empty⟩

/-- The template of a key, made if it is missing. -/
def group (reg : SubqueryRegistry) (ts : TableSchema) (q : SubqueryJson) (projCol : ℕ) (paramCols : List ℕ) :
    Except String TemplateGroup :=
  match reg.templates.get? (templateKey ft q) with
  | some group => .ok group
  | none => (compileResidual ft parseF64 ts (residual ft q)).map fun residual =>
    ⟨q.table,projCol,residual,paramCols,.empty⟩

/-- Collect a subquery that is not there yet, those nested in its WHERE having been collected before it. -/
def collectNew (reg : SubqueryRegistry) (ts : TableSchema) (q : SubqueryJson) :
    Except String SubqueryRegistry := do
  let sig := subquerySig ft q.table q.project q.where_
  let pred ← CompiledPredicate.compileOptWith parseF64 ts (signOnly ft) q.where_
  let projCol ← ts.columnIndex q.project
  let params ← (lifted ft q).mapM (bindParam parseF64 ts)
  let bind : Row := ⟨params.map (·.2)⟩
  let key := templateKey ft q
  let group ← reg.group ft parseF64 ts q projCol (params.map (·.1))
  return {
    nodes := reg.nodes.insert sig ⟨sig,q.table,projCol,pred,key,bind⟩
    templates := reg.templates.insert key { group with binds := group.binds.insert bind sig } }

def collect (schemas : String → Option TableSchema) (reg : SubqueryRegistry) (q : SubqueryJson) :
    Except String SubqueryRegistry :=
  if (reg.nodes.get? (subquerySig ft q.table q.project q.where_)).isSome then .ok reg
  else
    match schemas q.table with
    | none => .error "subquery: unknown inner table"
    | some ts => collectNew ft parseF64 reg ts q

def collectAll (schemas : String → Option TableSchema) (qs : List SubqueryJson) :
    Except String SubqueryRegistry := qs.foldlM (collect ft parseF64 schemas) empty

/-- For each key of a delta, the node of the template that its newest row belongs to. -/
def templatePresent (reg : SubqueryRegistry) (ts : TableSchema) (ev : SubqueryEval) (tkey : String)
    (delta : Delta) : List (String × Option (SubquerySig × Value)) :=
  match reg.templates.get? tkey with
  | none => []
  | some tpl => (latestRowsByPk ts delta).entries.map fun (pk,row,isNew) => (pk,tpl.target ev row isNew)

end SubqueryRegistry

variable {ft parseF64} {ts : TableSchema}

/-- A conjunct is compiled, and TRUE on the row. -/
def TrueOn (ft : FloatText) (parseF64 : String → Option OrderedFloat) (ts : TableSchema) (row : Row)
    (ev : SubqueryEval) (p : PredicateJson) : Prop :=
  ∃ a, CompiledPredicate.compileWith parseF64 ts (signOnly ft) p = .ok a ∧ a.evalCtx row ev = .true

lemma trueOn_iff {p : PredicateJson} {a : CompiledPredicate}
    (ha : CompiledPredicate.compileWith parseF64 ts (signOnly ft) p = .ok a) (row : Row) (ev : SubqueryEval) :
    TrueOn ft parseF64 ts row ev p ↔ a.evalCtx row ev = .true := by
  constructor
  · rintro ⟨b,hb,htrue⟩
    obtain rfl := Except.ok.inj (ha.symm.trans hb)
    exact htrue
  · exact fun htrue => ⟨a,ha,htrue⟩

lemma mem_conjunctsAll {ps : List PredicateJson} {q : PredicateJson} :
    q ∈ conjunctsAll ps ↔ ∃ p ∈ ps, q ∈ p.conjuncts := by
  induction ps with
  | nil => simp [conjunctsAll]
  | cons p ps ih => rw [conjunctsAll,List.mem_append,ih,List.exists_mem_cons_iff]

lemma trueOn_and {ps : List PredicateJson} {a : CompiledPredicate}
    (ha : CompiledPredicate.compileWith parseF64 ts (signOnly ft) (.and ps) = .ok a) :
    (∀ p ∈ ps, ∃ b, CompiledPredicate.compileWith parseF64 ts (signOnly ft) p = .ok b) ∧ ∀ row ev,
      (a.evalCtx row ev = .true ↔ ∀ p ∈ ps, TrueOn ft parseF64 ts row ev p) := by
  rw [CompiledPredicate.compileWith,bind_eq_ok] at ha
  obtain ⟨as,has,⟨⟩⟩ := ha
  rw [CompiledPredicate.compileAll_eq_ok] at has
  have hand : ∀ row ev, ((CompiledPredicate.and as).evalCtx row ev = .true ↔
      ∀ a ∈ as, a.evalCtx row ev = .true) := fun row ev => by
    rw [CompiledPredicate.evalCtx,CompiledPredicate.evalAnd_eq_true,and_iff_right rfl]
  simp only [hand]
  clear hand
  induction has with
  | nil => simp
  | @cons p a ps as hpa _ ih =>
    refine ⟨List.forall_mem_cons.mpr ⟨⟨a,hpa⟩,ih.1⟩,fun row ev => ?_⟩
    rw [List.forall_mem_cons,List.forall_mem_cons,ih.2,trueOn_iff hpa]

/-- A WHERE is TRUE exactly when its conjuncts are. -/
lemma trueOn_conjuncts (p : PredicateJson) : ∀ a,
    CompiledPredicate.compileWith parseF64 ts (signOnly ft) p = .ok a →
    (∀ q ∈ p.conjuncts, ∃ b, CompiledPredicate.compileWith parseF64 ts (signOnly ft) q = .ok b) ∧
      ∀ row ev, (a.evalCtx row ev = .true ↔ ∀ q ∈ p.conjuncts, TrueOn ft parseF64 ts row ev q) := by
  have hsingle : ∀ p, (∀ ps, p ≠ .and ps) → ∀ a,
      CompiledPredicate.compileWith parseF64 ts (signOnly ft) p = .ok a →
      (∀ q ∈ p.conjuncts, ∃ b, CompiledPredicate.compileWith parseF64 ts (signOnly ft) q = .ok b) ∧
        ∀ row ev, (a.evalCtx row ev = .true ↔ ∀ q ∈ p.conjuncts, TrueOn ft parseF64 ts row ev q) := by
    intro p hp a ha
    have hdef : p.conjuncts = [p] := by
      cases p with
      | and ps => exact absurd rfl (hp ps)
      | _ => rfl
    rw [hdef]
    simp only [List.forall_mem_singleton]
    exact ⟨⟨a,ha⟩,fun row ev => (trueOn_iff ha row ev).symm⟩
  induction p using PredicateJson.induction_on with
  | and ps ih =>
    intro a ha
    obtain ⟨hcompile,heval⟩ := trueOn_and ha
    rw [PredicateJson.conjuncts]
    refine ⟨fun q hq => ?_,fun row ev => ?_⟩
    · obtain ⟨p,hp,hq⟩ := mem_conjunctsAll.mp hq
      obtain ⟨b,hb⟩ := hcompile p hp
      exact (ih p hp b hb).1 q hq
    · rw [heval]
      have hchild : ∀ p ∈ ps, (TrueOn ft parseF64 ts row ev p ↔
          ∀ q ∈ p.conjuncts, TrueOn ft parseF64 ts row ev q) := fun p hp => by
        obtain ⟨b,hb⟩ := hcompile p hp
        rw [trueOn_iff hb,(ih p hp b hb).2]
      constructor
      · intro h q hq
        obtain ⟨p,hp,hq⟩ := mem_conjunctsAll.mp hq
        exact (hchild p hp).mp (h p hp) q hq
      · intro h p hp
        exact (hchild p hp).mpr fun q hq => h q (mem_conjunctsAll.mpr ⟨p,hp,hq⟩)
  | _ => exact hsingle _ (by simp)

/-- The leaf that a lifted equality was. -/
def liftedLeaf (l : String × Literal) : PredicateJson := .leaf l.1 .eq l.2

lemma liftable_eq {lifted : List (String × Literal)} {p : PredicateJson} {l : String × Literal}
    (h : liftable lifted p = some l) : p = liftedLeaf l ∧ l.2.json.isNull = false := by
  unfold liftable at h
  split at h
  · split_ifs at h with hl
    obtain rfl := Option.some.inj h
    simp only [Bool.and_eq_true,Bool.not_eq_true'] at hl
    exact ⟨rfl,hl.1⟩
  · cases h

/-- Lifting moves conjuncts about, and loses none. -/
lemma foldl_liftStep (ps : List PredicateJson) : ∀ acc, (∀ l ∈ acc.1, l.2.json.isNull = false) →
    (∀ l ∈ (ps.foldl liftStep acc).1, l.2.json.isNull = false) ∧
    ((ps.foldl liftStep acc).1.map liftedLeaf ++ (ps.foldl liftStep acc).2).Perm
      (acc.1.map liftedLeaf ++ acc.2 ++ ps) := by
  induction ps with
  | nil => exact fun acc hacc => ⟨hacc,by simp⟩
  | cons p ps ih =>
    intro acc hacc
    rw [List.foldl_cons,liftStep]
    cases hp : liftable acc.1 p with
    | none =>
      obtain ⟨hnull,hperm⟩ := ih (acc.1,acc.2 ++ [p]) hacc
      refine ⟨hnull,hperm.trans (List.Perm.of_eq ?_)⟩
      simp
    | some l =>
      obtain ⟨hleaf,hl⟩ := liftable_eq hp
      have hacc' : ∀ l' ∈ acc.1 ++ [l], l'.2.json.isNull = false := by
        rw [List.forall_mem_append,List.forall_mem_singleton]
        exact ⟨hacc,hl⟩
      obtain ⟨hnull,hperm⟩ := ih (acc.1 ++ [l],acc.2) hacc'
      refine ⟨hnull,hperm.trans ?_⟩
      rw [hleaf,List.map_append,List.append_assoc,List.append_assoc,List.append_assoc]
      refine List.Perm.append_left _ ?_
      change (liftedLeaf l::(acc.2 ++ ps)).Perm _
      exact List.perm_middle.symm

lemma liftAll_perm (where_ : Option PredicateJson) :
    (∀ l ∈ (liftAll ft where_).1, l.2.json.isNull = false) ∧
    ((liftAll ft where_).1.map liftedLeaf ++ (liftAll ft where_).2).Perm
      ((where_.map PredicateJson.conjuncts).getD []) := by
  cases where_ with
  | none => simp [liftAll]
  | some w =>
    rw [liftAll]
    obtain ⟨hnull,hperm⟩ := foldl_liftStep
      (w.conjuncts.insertionSort fun p q => canonicalPred ft p ≤ canonicalPred ft q) ([],[]) (by simp)
    exact ⟨hnull,hperm.trans (List.perm_insertionSort _ _)⟩

/-- Of the conjuncts, each is lifted or in the residual. -/
lemma mem_lifted_or_residual (q : SubqueryJson) (p : PredicateJson) :
    ((∃ l ∈ lifted ft q, p = liftedLeaf l) ∨ p ∈ residual ft q) ↔
      p ∈ (q.where_.map PredicateJson.conjuncts).getD [] := by
  rw [← (@liftAll_perm ft q.where_).2.mem_iff,List.mem_append,List.mem_map,lifted,residual]
  simp only [(List.perm_insertionSort _ _).mem_iff,eq_comm]

lemma isNull_lifted {q : SubqueryJson} {l : String × Literal} (hl : l ∈ lifted ft q) :
    l.2.json.isNull = false :=
  (liftAll_perm q.where_).1 l ((List.perm_insertionSort _ _).mem_iff.mp hl)

/-- A literal that is not NULL is a value that is not. -/
lemma literalFromJson_ne_null {j : Json} {ty : ColumnType} {v : Value}
    (h : Value.literalFromJson parseF64 j ty = .ok v) (hj : j.isNull = false) : v ≠ .null := by
  rintro rfl
  unfold Value.literalFromJson at h
  split at h
  · split at h
    · cases h
    all_goals
      split at h <;> try split at h
    all_goals
      cases h
  · unfold Value.fromJson at h
    split at h
    · cases hj
    all_goals
      try split at h
    all_goals
      cases h

/-- A lifted equality is TRUE where the cell is the value of the bind. -/
lemma trueOn_lifted {l : String × Literal} {x : ℕ × Value} (hx : bindParam parseF64 ts l = .ok x)
    (hl : l.2.json.isNull = false) (row : Row) (ev : SubqueryEval) :
    TrueOn ft parseF64 ts row ev (liftedLeaf l) ↔ (row.cell x.1 == x.2) = true := by
  rw [bindParam] at hx
  simp only [bind_eq_ok] at hx
  obtain ⟨idx,hidx,v,hv,⟨⟩⟩ := hx
  have hcompile : CompiledPredicate.compileWith parseF64 ts (signOnly ft) (liftedLeaf l) =
      .ok (.cmp idx .eq v) := by
    simp only [liftedLeaf,CompiledPredicate.compileWith,bind_eq_ok]
    exact ⟨idx,hidx,v,hv,rfl⟩
  rw [trueOn_iff hcompile]
  exact CompiledPredicate.eval_eq (literalFromJson_ne_null hv hl)

lemma exists_bindParam {l : String × Literal}
    (h : ∃ a, CompiledPredicate.compileWith parseF64 ts (signOnly ft) (liftedLeaf l) = .ok a) :
    ∃ x, bindParam parseF64 ts l = .ok x := by
  obtain ⟨a,ha⟩ := h
  simp only [liftedLeaf,CompiledPredicate.compileWith,bind_eq_ok] at ha
  obtain ⟨idx,hidx,v,hv,-⟩ := ha
  exact ⟨(idx,v),by simp only [bindParam,bind_eq_ok]; exact ⟨idx,hidx,v,hv,rfl⟩⟩

lemma exists_mapM {α β : Type} {f : α → Except String β} {xs : List α} (h : ∀ x ∈ xs, ∃ y, f x = .ok y) :
    ∃ ys, xs.mapM f = .ok ys := by
  induction xs with
  | nil => exact ⟨[],rfl⟩
  | cons x xs ih =>
    obtain ⟨⟨y,hy⟩,hxs⟩ := List.forall_mem_cons.mp h
    obtain ⟨ys,hys⟩ := ih hxs
    exact ⟨y::ys,by rw [List.mapM_cons,hy,hys]; rfl⟩

/-- The values of a row in the columns of a bind are those of the bind. -/
lemma keyOf_beq_iff (row : Row) (params : List (ℕ × Value)) :
    (keyOf row (params.map (·.1)) == (⟨params.map (·.2)⟩ : Row)) = true ↔
      ∀ x ∈ params, (row.cell x.1 == x.2) = true := by
  rw [Row.beq_iff_codes,keyOf]
  simp only [List.map_map,List.map_inj_left,Function.comp_apply,Value.beq_iff_code]

lemma trueOn_residual {ps : List PredicateJson} {res : CompiledPredicate}
    (h : compileResidual ft parseF64 ts ps = .ok res) (row : Row) (ev : SubqueryEval) :
    res.evalCtx row ev = .true ↔ ∀ p ∈ ps, TrueOn ft parseF64 ts row ev p := by
  rw [compileResidual] at h
  split_ifs at h with hempty
  · obtain rfl := Except.ok.inj h
    rw [List.isEmpty_iff.mp hempty]
    exact iff_of_true rfl (by simp)
  · exact (trueOn_and h).2 row ev

lemma exists_residual {ps : List PredicateJson}
    (h : ∀ p ∈ ps, ∃ a, CompiledPredicate.compileWith parseF64 ts (signOnly ft) p = .ok a) :
    ∃ res, compileResidual ft parseF64 ts ps = .ok res := by
  rw [compileResidual]
  split_ifs
  · exact ⟨_,rfl⟩
  · have hall : ∃ as, CompiledPredicate.compileAll parseF64 ts (signOnly ft) ps = .ok as := by
      simp only [CompiledPredicate.compileAll_eq_ok]
      clear * - h
      induction ps with
      | nil => exact ⟨[],.nil⟩
      | cons p ps ih =>
        obtain ⟨⟨a,ha⟩,hps⟩ := List.forall_mem_cons.mp h
        obtain ⟨as,has⟩ := ih hps
        exact ⟨a::as,.cons ha has⟩
    obtain ⟨as,has⟩ := hall
    exact ⟨.and as,by rw [CompiledPredicate.compileWith,bind_eq_ok]; exact ⟨as,has,rfl⟩⟩

/-- The template of a predicate that compiles: TRUE is a TRUE residual on a row with the values of the bind. -/
lemma template_eval {q : SubqueryJson} {pred : CompiledPredicate}
    (h : CompiledPredicate.compileOptWith parseF64 ts (signOnly ft) q.where_ = .ok pred) :
    ∃ res params, compileResidual ft parseF64 ts (residual ft q) = .ok res ∧
      (lifted ft q).mapM (bindParam parseF64 ts) = .ok params ∧
      ∀ row ev, (pred.evalCtx row ev = .true ↔ res.evalCtx row ev = .true ∧
        (keyOf row (params.map (·.1)) == (⟨params.map (·.2)⟩ : Row)) = true) := by
  have hwhere : (∀ p ∈ (q.where_.map PredicateJson.conjuncts).getD [],
        ∃ a, CompiledPredicate.compileWith parseF64 ts (signOnly ft) p = .ok a) ∧
      ∀ row ev, (pred.evalCtx row ev = .true ↔
        ∀ p ∈ (q.where_.map PredicateJson.conjuncts).getD [], TrueOn ft parseF64 ts row ev p) := by
    cases hw : q.where_ with
    | none =>
      rw [hw] at h
      obtain rfl := Except.ok.inj h
      exact ⟨by simp,fun row ev => iff_of_true rfl (by simp)⟩
    | some w =>
      rw [hw] at h
      exact trueOn_conjuncts w pred h
  simp only [← @mem_lifted_or_residual ft q] at hwhere
  obtain ⟨hcompile,heval⟩ := hwhere
  obtain ⟨res,hres⟩ := exists_residual fun p hp => hcompile p (.inr hp)
  obtain ⟨params,hparams⟩ := exists_mapM fun l hl => exists_bindParam (hcompile _ (.inl ⟨l,hl,rfl⟩))
  refine ⟨res,params,hres,hparams,fun row ev => ?_⟩
  rw [heval,trueOn_residual hres,keyOf_beq_iff,and_comm]
  have hbind : (∀ x ∈ params, (row.cell x.1 == x.2) = true) ↔
      ∀ l ∈ lifted ft q, TrueOn ft parseF64 ts row ev (liftedLeaf l) := by
    have hall := TableSchema.forall₂_of_mapM hparams
    have hnull : ∀ l ∈ lifted ft q, l.2.json.isNull = false := fun l hl => isNull_lifted hl
    generalize lifted ft q = ls at hall hnull
    clear hparams
    induction hall with
    | nil => simp
    | cons hx _ ih =>
      obtain ⟨hl,hls⟩ := List.forall_mem_cons.mp hnull
      rw [List.forall_mem_cons,List.forall_mem_cons]
      exact and_congr (trueOn_lifted hx hl row ev).symm (ih hls)
  rw [hbind]
  constructor
  · exact fun hall => ⟨fun l hl => hall _ (.inl ⟨l,hl,rfl⟩),fun p hp => hall p (.inr hp)⟩
  · rintro ⟨hlift,hresid⟩ p (⟨l,hl,rfl⟩ | hp)
    · exact hlift l hl
    · exact hresid p hp

/-- What a template key says before its residual. -/
def templateHead (ft : FloatText) (q : SubqueryJson) : List Char :=
  (q.table ++ "|" ++ q.project ++ "|P(" ++ ",".intercalate ((lifted ft q).map (·.1)) ++ ")|A(").toList

/-- The columns that a template lifts. -/
def liftedColumns (ft : FloatText) (q : SubqueryJson) : List String := (lifted ft q).map (·.1)

/-- The start of one template's key is not the start of the other's, unless they read one column of one
table by the same columns; and the heads in their residuals are apart. -/
def TemplatesApart (ft : FloatText) (q q' : SubqueryJson) : Prop :=
  ((templateHead ft q <+: templateHead ft q' ∨ templateHead ft q' <+: templateHead ft q) →
    q.table = q'.table ∧ q.project = q'.project ∧ liftedColumns ft q = liftedColumns ft q') ∧
  HeadsApart (headsAll (residual ft q)) (headsAll (residual ft q'))

/-- Two subqueries that differ in the bind only. -/
def SameTemplate (ft : FloatText) (q q' : SubqueryJson) : Prop :=
  q.table = q'.table ∧ q.project = q'.project ∧ liftedColumns ft q = liftedColumns ft q' ∧
    (PredicateJson.and (residual ft q)).Reorder (.and (residual ft q'))

lemma sameTemplate_of_key {q q' : SubqueryJson} (hapart : TemplatesApart ft q q')
    (h : templateKey ft q = templateKey ft q') : SameTemplate ft q q' := by
  have hl : templateHead ft q ++ ((sortJoin (canonicalPreds ft (residual ft q))).toList ++ ")".toList) =
      templateHead ft q' ++ ((sortJoin (canonicalPreds ft (residual ft q'))).toList ++ ")".toList) := by
    have hl := congrArg String.toList h
    simpa only [templateKey,templateHead,String.toList_append,List.append_assoc] using hl
  obtain ⟨htable,hproject,hcols⟩ := hapart.1 (List.prefix_or_prefix_of_prefix ⟨_,hl⟩ ⟨_,rfl⟩)
  have hhead : templateHead ft q = templateHead ft q' := by
    rw [liftedColumns,liftedColumns] at hcols
    rw [templateHead,templateHead,htable,hproject,hcols]
  rw [hhead] at hl
  obtain ⟨⟨qs,hqs,hperm⟩,-⟩ := children_cancel ft (fun p hp q hq s t hst =>
    canonicalPred_cancel ft p q (hapart.2.child hp hq) hst) (List.append_cancel_left hl)
  exact ⟨htable,hproject,hcols,_,qs,rfl,hqs,hperm⟩

lemma reorder_refl (p : PredicateJson) : p.Reorder p := by
  have hall : ∀ ps : List PredicateJson, (∀ p ∈ ps, p.Reorder p) → ReorderAll ps ps := fun ps h =>
    (reorderAll_iff ps ps).mpr (List.forall₂_same.mpr h)
  induction p using PredicateJson.induction_on with
  | leaf col op v => rfl
  | isNull col b => rfl
  | and ps ih => exact ⟨ps,ps,rfl,hall ps ih,.refl _⟩
  | or ps ih => exact ⟨ps,ps,rfl,hall ps ih,.refl _⟩
  | not p ih => exact ⟨p,rfl,ih⟩
  | inSubquery col negated table project w ih =>
    cases w with
    | none => exact ⟨none,rfl,rfl⟩
    | some w => exact ⟨some w,rfl,w,rfl,ih w rfl⟩

lemma SameTemplate.refl (q : SubqueryJson) : SameTemplate ft q q := ⟨rfl,rfl,rfl,reorder_refl _⟩

/-- Residuals that are the same up to the order of children are TRUE together. -/
lemma residual_congr {q q' : SubqueryJson} (h : SameTemplate ft q q') {res res' : CompiledPredicate}
    (hres : compileResidual ft parseF64 ts (residual ft q) = .ok res)
    (hres' : compileResidual ft parseF64 ts (residual ft q') = .ok res') (row : Row) (ev : SubqueryEval) :
    res.evalCtx row ev = res'.evalCtx row ev := by
  have hempty : (residual ft q).isEmpty = (residual ft q').isEmpty := by
    obtain ⟨qs,qs',hqs,hall,hperm⟩ := h.2.2.2
    obtain rfl : residual ft q' = qs := PredicateJson.and.inj hqs
    have hlen := ((reorderAll_iff _ _).mp hall).length_eq.trans hperm.length_eq
    rw [Bool.eq_iff_iff,List.isEmpty_iff_length_eq_zero,List.isEmpty_iff_length_eq_zero,hlen]
  rw [compileResidual] at hres hres'
  rw [hempty] at hres
  split_ifs at hres hres'
  · rw [← Except.ok.inj hres,← Except.ok.inj hres']
  · exact CompiledPredicate.evalCtx_eq_of_reorder (signs_signOnly ft) (signs_signOnly ft) h.2.2.2 hres hres' row ev

/-- What is known of a node from the subquery it was collected for. -/
def NodeOf (ft : FloatText) (parseF64 : String → Option OrderedFloat) (schemas : String → Option TableSchema)
    (q : SubqueryJson) (node : SubqueryNode) : Prop :=
  ∃ ts params, schemas q.table = some ts ∧
    CompiledPredicate.compileOptWith parseF64 ts (signOnly ft) q.where_ = .ok node.pred ∧
    ts.columnIndex q.project = .ok node.projCol ∧
    (lifted ft q).mapM (bindParam parseF64 ts) = .ok params ∧ node.bind = ⟨params.map (·.2)⟩ ∧
    node.templateKey = templateKey ft q

/-- What is known of a template from the subquery it was made for. -/
def GroupOf (ft : FloatText) (parseF64 : String → Option OrderedFloat) (schemas : String → Option TableSchema)
    (q : SubqueryJson) (g : TemplateGroup) : Prop :=
  ∃ ts params, schemas q.table = some ts ∧ ts.columnIndex q.project = .ok g.projCol ∧
    (lifted ft q).mapM (bindParam parseF64 ts) = .ok params ∧ g.paramCols = params.map (·.1) ∧
    compileResidual ft parseF64 ts (residual ft q) = .ok g.residual

/-- The places of the lifted columns do not depend on the literals. -/
lemma mapM_columnIndex {ls : List (String × Literal)} {params : List (ℕ × Value)}
    (h : ls.mapM (bindParam parseF64 ts) = .ok params) :
    (ls.map (·.1)).mapM ts.columnIndex = .ok (params.map (·.1)) := by
  have hall := TableSchema.forall₂_of_mapM h
  clear h
  induction hall with
  | nil => rfl
  | @cons l x ls params hx _ ih =>
    simp only [bindParam,bind_eq_ok] at hx
    obtain ⟨idx,hidx,v,-,⟨⟩⟩ := hx
    rw [List.map_cons,List.mapM_cons,hidx,ih]
    rfl

/-- A node in a template of the same kind is TRUE where the template sends a row to its bind. -/
lemma node_true_iff {schemas : String → Option TableSchema} {q q' : SubqueryJson} {node : SubqueryNode}
    {g : TemplateGroup} (hnode : NodeOf ft parseF64 schemas q node) (hgroup : GroupOf ft parseF64 schemas q' g)
    (hsame : SameTemplate ft q q') : g.projCol = node.projCol ∧ ∀ row ev, (node.pred.evalCtx row ev = .true ↔
      g.residual.evalCtx row ev = .true ∧ (keyOf row g.paramCols == node.bind) = true) := by
  obtain ⟨ts,params,hts,hpred,hproj,hparams,hbind,-⟩ := hnode
  obtain ⟨ts',params',hts',hproj',hparams',hcols',hres'⟩ := hgroup
  rw [← hsame.1,hts] at hts'
  obtain rfl := Option.some.inj hts'
  rw [← hsame.2.1,hproj] at hproj'
  obtain ⟨res,params'',hres,hparams'',heval⟩ := template_eval hpred
  rw [hparams] at hparams''
  obtain rfl := Except.ok.inj hparams''
  have hparamCols : params.map (·.1) = params'.map (·.1) := by
    have hleft := mapM_columnIndex hparams
    have hright := mapM_columnIndex hparams'
    have hcols : (lifted ft q).map (·.1) = (lifted ft q').map (·.1) := hsame.2.2.1
    rw [hcols,hright] at hleft
    exact (Except.ok.inj hleft).symm
  refine ⟨(Except.ok.inj hproj').symm,fun row ev => ?_⟩
  rw [heval,hcols',hbind,← hparamCols,residual_congr hsame hres hres']

namespace SubqueryRegistry

/-- Nodes and templates are those of the subqueries collected so far, and every bind leads to a node that has
it. -/
structure Collected (ft : FloatText) (parseF64 : String → Option OrderedFloat)
    (schemas : String → Option TableSchema) (qs : List SubqueryJson) (reg : SubqueryRegistry) : Prop where
  nodes : ∀ sig node, reg.nodes.get? sig = some node → ∃ q ∈ qs, NodeOf ft parseF64 schemas q node
  groups : ∀ key g, reg.templates.get? key = some g →
    ∃ q ∈ qs, templateKey ft q = key ∧ GroupOf ft parseF64 schemas q g
  binds : ∀ key g b sig, reg.templates.get? key = some g → g.binds.get? b = some sig →
    ∃ node, reg.nodes.get? sig = some node ∧ node.templateKey = key ∧ (node.bind == b) = true
  served : ∀ sig node, reg.nodes.get? sig = some node → ∃ g,
    reg.templates.get? node.templateKey = some g ∧ (g.binds.get? node.bind).isSome

variable {schemas : String → Option TableSchema} {reg reg' : SubqueryRegistry} {qs : List SubqueryJson}

lemma collected_empty : Collected ft parseF64 schemas [] empty where
  nodes _ _ h := nomatch h
  groups _ _ h := nomatch h
  binds _ _ _ _ h := nomatch h
  served _ _ h := nomatch h

lemma group_eq_ok {q : SubqueryJson} {projCol : ℕ} {paramCols : List ℕ} {g : TemplateGroup}
    (h : reg.group ft parseF64 ts q projCol paramCols = .ok g) : reg.templates.get? (templateKey ft q) = some g ∨
      reg.templates.get? (templateKey ft q) = none ∧ ∃ res,
        compileResidual ft parseF64 ts (residual ft q) = .ok res ∧ g = ⟨q.table,projCol,res,paramCols,.empty⟩ := by
  rw [SubqueryRegistry.group] at h
  cases hg : reg.templates.get? (templateKey ft q) with
  | some g' =>
    rw [hg] at h
    exact .inl (by rw [Except.ok.inj h])
  | none =>
    rw [hg] at h
    cases hres : compileResidual ft parseF64 ts (residual ft q) with
    | error e =>
      rw [hres] at h
      cases h
    | ok res =>
      rw [hres] at h
      exact .inr ⟨rfl,res,rfl,(Except.ok.inj h).symm⟩

lemma Collected.collect (h : Collected ft parseF64 schemas qs reg) {q : SubqueryJson}
    (hq : collect ft parseF64 schemas reg q = .ok reg') : Collected ft parseF64 schemas (qs ++ [q]) reg' := by
  have hmono : ∀ {P : SubqueryJson → Prop}, (∃ q ∈ qs, P q) → ∃ q' ∈ qs ++ [q], P q' := by
    rintro P ⟨q,hmem,hP⟩
    exact ⟨q,List.mem_append_left _ hmem,hP⟩
  rw [SubqueryRegistry.collect] at hq
  split_ifs at hq with hthere
  · obtain rfl := Except.ok.inj hq
    exact ⟨fun sig node hn => hmono (h.nodes sig node hn),fun key g hg => hmono (h.groups key g hg),h.binds,
      h.served⟩
  cases hts : schemas q.table with
  | none =>
    rw [hts] at hq
    cases hq
  | some ts =>
    rw [hts] at hq
    simp only [collectNew,bind_eq_ok] at hq
    obtain ⟨pred,hpred,projCol,hproj,params,hparams,group,hgroup,hreg⟩ := hq
    obtain rfl := Except.ok.inj hreg
    have hnew : reg.nodes.get? (subquerySig ft q.table q.project q.where_) = none := by
      simpa using hthere
    generalize subquerySig ft q.table q.project q.where_ = sig at *
    have hgroupOf : ∃ q' ∈ qs ++ [q], templateKey ft q' = templateKey ft q ∧
        GroupOf ft parseF64 schemas q' group := by
      rcases group_eq_ok hgroup with hg | ⟨-,res,hres,rfl⟩
      · exact hmono (h.groups _ _ hg)
      · exact ⟨q,by simp,rfl,ts,params,hts,hproj,hparams,rfl,hres⟩
    have hold : ∀ b sig', group.binds.get? b = some sig' → ∃ node, reg.nodes.get? sig' = some node ∧
        node.templateKey = templateKey ft q ∧ (node.bind == b) = true := fun b sig' hb => by
      rcases group_eq_ok hgroup with hg | ⟨-,res,hres,rfl⟩
      · exact h.binds _ _ b sig' hg hb
      · cases hb
    refine ⟨fun sig' node hnode => ?_,fun key g hg => ?_,fun key g b sig' hg hb => ?_,fun sig' node hnode => ?_⟩
    · dsimp only at hnode
      rw [AssocMap.get?_insert_eq] at hnode
      split_ifs at hnode with hsig
      · obtain rfl := Option.some.inj hnode
        exact ⟨q,by simp,ts,params,hts,hpred,hproj,hparams,rfl,rfl⟩
      · exact hmono (h.nodes sig' node hnode)
    · dsimp only at hg
      rw [AssocMap.get?_insert_eq] at hg
      split_ifs at hg with hkey
      · obtain rfl := Option.some.inj hg
        obtain ⟨q',hq',hk,hof⟩ := hgroupOf
        exact ⟨q',hq',hk.trans hkey,hof⟩
      · exact hmono (h.groups key g hg)
    · have hlift : ∀ {P : SubqueryNode → Prop}, (∃ node, reg.nodes.get? sig' = some node ∧ P node) →
          ∃ node, (reg.nodes.insert sig ⟨sig,q.table,projCol,pred,templateKey ft q,⟨params.map (·.2)⟩⟩).get? sig' =
            some node ∧ P node := by
        rintro P ⟨node,hnode,hP⟩
        refine ⟨node,?_,hP⟩
        rw [AssocMap.get?_insert_eq,if_neg,hnode]
        rintro rfl
        rw [hnew] at hnode
        cases hnode
      dsimp only at hg ⊢
      rw [AssocMap.get?_insert_eq] at hg
      split_ifs at hg with hkey
      · obtain rfl := Option.some.inj hg
        dsimp only at hb
        rw [AssocMap.get?_insert] at hb
        split_ifs at hb with hbind
        · obtain rfl := Option.some.inj hb
          exact ⟨_,AssocMap.get?_insert_self _ _ _,hkey,hbind⟩
        · exact hkey ▸ hlift (hold b sig' hb)
      · exact hlift (h.binds key g b sig' hg hb)
    · dsimp only at hnode ⊢
      rw [AssocMap.get?_insert_eq] at hnode
      split_ifs at hnode with hsig
      · obtain rfl := Option.some.inj hnode
        exact ⟨_,AssocMap.get?_insert_self _ _ _,by simp⟩
      · obtain ⟨g,hg,hb⟩ := h.served sig' node hnode
        rw [AssocMap.get?_insert_eq]
        split_ifs with hkey
        · obtain rfl : group = g := by
            rcases group_eq_ok hgroup with hgroup | ⟨hgroup,-⟩
            · exact Option.some.inj (hgroup.symm.trans (hkey ▸ hg))
            · rw [hkey,hg] at hgroup
              cases hgroup
          refine ⟨_,rfl,?_⟩
          dsimp only
          rw [AssocMap.get?_insert]
          split_ifs
          · rfl
          · exact hb
        · exact ⟨g,hg,hb⟩

lemma collected_collectAll (h : collectAll ft parseF64 schemas qs = .ok reg) :
    Collected ft parseF64 schemas qs reg := by
  have hrun : ∀ (qs done : List SubqueryJson) reg, Collected ft parseF64 schemas done reg → ∀ reg',
      qs.foldlM (SubqueryRegistry.collect ft parseF64 schemas) reg = .ok reg' →
      Collected ft parseF64 schemas (done ++ qs) reg' := by
    intro qs
    induction qs with
    | nil =>
      intro done reg hreg reg' hrun
      obtain rfl := Except.ok.inj hrun
      rwa [List.append_nil]
    | cons q qs ih =>
      intro done reg hreg reg' hrun
      rw [List.foldlM_cons,bind_eq_ok] at hrun
      obtain ⟨mid,hmid,hrest⟩ := hrun
      have hdone := ih (done ++ [q]) mid (hreg.collect hmid) reg' hrest
      rwa [List.append_assoc,List.singleton_append] at hdone
  exact hrun qs [] empty collected_empty reg h

/-- The newest row of a key goes to a node, with the value it has there. -/
def Assigned (reg : SubqueryRegistry) (ts : TableSchema) (ev : SubqueryEval) (delta : Delta) (pk : String)
    (row : Row) (sig : SubquerySig) (node : SubqueryNode) : Prop :=
  (pk,some (sig,row.cell node.projCol)) ∈ reg.templatePresent ts ev node.templateKey delta

lemma assigned_iff {ev : SubqueryEval} {delta : Delta} {pk : String} {row : Row} {sig : SubquerySig}
    {node : SubqueryNode} {g : TemplateGroup} (hg : reg.templates.get? node.templateKey = some g)
    (hproj : g.projCol = node.projCol) (hrow : (latestRowsByPk ts delta).get? pk = some (row,true)) :
    reg.Assigned ts ev delta pk row sig node ↔
      g.residual.evalCtx row ev = .true ∧ g.binds.get? (keyOf row g.paramCols) = some sig := by
  have htarget : reg.Assigned ts ev delta pk row sig node ↔
      g.target ev row true = some (sig,row.cell node.projCol) := by
    rw [Assigned,templatePresent,hg]
    simp only [List.mem_map,Prod.mk.injEq]
    constructor
    · rintro ⟨⟨pk',row',isNew⟩,hmem,rfl,htarget⟩
      rw [(AssocMap.mem_entries _ _ _).mp hmem] at hrow
      obtain ⟨rfl,rfl⟩ := Prod.mk.inj (Option.some.inj hrow)
      exact htarget
    · exact fun htarget => ⟨(pk,row,true),(AssocMap.mem_entries _ _ _).mpr hrow,rfl,htarget⟩
  rw [htarget,TemplateGroup.target,hproj,Bool.true_and,CompiledPredicate.matchesCtx]
  simp only [decide_eq_true_eq]
  split_ifs with hres
  · simp [hres]
  · simp [hres]

/-- For predicates and rows without condition, the residual and the bind say what the predicate says; where
names are told apart a key stands for one template, and a row reaches the nodes it belongs to unless two of
them have one bind. -/
theorem templates_dispatch (ft : FloatText) (parseF64 : String → Option OrderedFloat) :
    (∀ (ts : TableSchema) (q : SubqueryJson) (pred : CompiledPredicate),
      CompiledPredicate.compileOptWith parseF64 ts (signOnly ft) q.where_ = .ok pred → ∃ res params,
        compileResidual ft parseF64 ts (residual ft q) = .ok res ∧
        (lifted ft q).mapM (bindParam parseF64 ts) = .ok params ∧ ∀ row ev, (pred.evalCtx row ev = .true ↔
          res.evalCtx row ev = .true ∧ (keyOf row (params.map (·.1)) == (⟨params.map (·.2)⟩ : Row)) = true)) ∧
    (∀ q q' : SubqueryJson, TemplatesApart ft q q' → templateKey ft q = templateKey ft q' →
      SameTemplate ft q q') ∧
    ∀ (schemas : String → Option TableSchema) (qs : List SubqueryJson) (reg : SubqueryRegistry),
      collectAll ft parseF64 schemas qs = .ok reg →
      (∀ q ∈ qs, ∀ q' ∈ qs, q ≠ q' → TemplatesApart ft q q') →
      ∀ (ts : TableSchema) (ev : SubqueryEval) (delta : Delta) (pk : String) (row : Row),
        (latestRowsByPk ts delta).get? pk = some (row,true) →
        ((∀ sig node, reg.nodes.get? sig = some node →
          (reg.Assigned ts ev delta pk row sig node ↔ node.pred.evalCtx row ev = .true)) ↔
        ∀ sig node sig' node', reg.nodes.get? sig = some node → reg.nodes.get? sig' = some node' →
          node.templateKey = node'.templateKey → (node.bind == node'.bind) = true →
          node.pred.evalCtx row ev = .true → sig = sig') := by
  refine ⟨fun ts q pred h => template_eval h,fun q q' hapart h => sameTemplate_of_key hapart h,?_⟩
  intro schemas qs reg hreg hapart ts ev delta pk row hrow
  have hcol := collected_collectAll hreg
  -- a node and a template of its key agree
  have hagree : ∀ sig node g, reg.nodes.get? sig = some node → reg.templates.get? node.templateKey = some g →
      g.projCol = node.projCol ∧ (node.pred.evalCtx row ev = .true ↔
        g.residual.evalCtx row ev = .true ∧ (keyOf row g.paramCols == node.bind) = true) := by
    intro sig node g hnode hg
    obtain ⟨q,hq,hof⟩ := hcol.nodes sig node hnode
    obtain ⟨q',hq',hkey,hgof⟩ := hcol.groups _ g hg
    have hkeys : templateKey ft q = templateKey ft q' := by
      obtain ⟨-,-,-,-,-,-,-,hk⟩ := hof
      rw [hkey,hk]
    have hsame : SameTemplate ft q q' := by
      by_cases heq : q = q'
      · rw [heq]
        exact SameTemplate.refl q'
      · exact sameTemplate_of_key (hapart q hq q' hq' heq) hkeys
    obtain ⟨hproj,heval⟩ := node_true_iff hof hgof hsame
    exact ⟨hproj,heval row ev⟩
  have hassigned : ∀ sig node g, reg.nodes.get? sig = some node →
      reg.templates.get? node.templateKey = some g → (reg.Assigned ts ev delta pk row sig node ↔
        g.residual.evalCtx row ev = .true ∧ g.binds.get? (keyOf row g.paramCols) = some sig) :=
    fun sig node g hnode hg => assigned_iff hg (hagree sig node g hnode hg).1 hrow
  constructor
  · intro hall sig node sig' node' hnode hnode' hkey hbind htrue
    obtain ⟨g,hg,-⟩ := hcol.served sig node hnode
    have hg' : reg.templates.get? node'.templateKey = some g := hkey ▸ hg
    have htrue' : node'.pred.evalCtx row ev = .true := by
      obtain ⟨hres,hcell⟩ := (hagree sig node g hnode hg).2.mp htrue
      exact (hagree sig' node' g hnode' hg').2.mpr ⟨hres,BEq.trans hcell hbind⟩
    have h1 := ((hassigned sig node g hnode hg).mp ((hall sig node hnode).mpr htrue)).2
    have h2 := ((hassigned sig' node' g hnode' hg').mp ((hall sig' node' hnode').mpr htrue')).2
    exact Option.some.inj (h1.symm.trans h2)
  · intro honly sig node hnode
    obtain ⟨g,hg,hserved⟩ := hcol.served sig node hnode
    rw [hassigned sig node g hnode hg,(hagree sig node g hnode hg).2]
    refine and_congr_right fun hres => ⟨fun hget => ?_,fun hcell => ?_⟩
    · obtain ⟨node',hnode',-,hbind⟩ := hcol.binds _ g _ sig hg hget
      rw [hnode] at hnode'
      obtain rfl := Option.some.inj hnode'
      exact BEq.symm hbind
    · rw [← g.binds.get?_congr hcell] at hserved
      obtain ⟨sig',hget⟩ := Option.isSome_iff_exists.mp hserved
      obtain ⟨node',hnode',hkey',hbind'⟩ := hcol.binds _ g _ sig' hg hget
      have htrue := (hagree sig node g hnode hg).2.mpr ⟨hres,hcell⟩
      have heq := honly sig node sig' node' hnode hnode' hkey'.symm (BEq.symm (BEq.trans hbind' hcell)) htrue
      rw [heq]
      exact hget

/-- The issues of a level, which is given as a number or as a text. -/
def sampleLevel (level : Literal) : SubqueryJson := ⟨"issues","id",some (.leaf "level" .eq level)⟩

def sampleSchemas : String → Option TableSchema := fun _ => some .sample

def sampleCollected (qs : List SubqueryJson) : Except String SubqueryRegistry :=
  collectAll .positional (fun _ => none) sampleSchemas qs

/-- Two levels share a template, and an issue goes to the node of its level. -/
theorem sample_templates_dispatch :
    ∃ reg, sampleCollected [sampleLevel ⟨.int 3,rfl⟩,sampleLevel ⟨.int 4,rfl⟩] = .ok reg ∧
      ∀ sig node, reg.nodes.get? sig = some node →
        (reg.Assigned .sample panicEval [(⟨[.int 1,.int 3]⟩,1)] "1" ⟨[.int 1,.int 3]⟩ sig node ↔
          node.pred.evalCtx ⟨[.int 1,.int 3]⟩ panicEval = .true) := by
  have hnodes : (sampleCollected [sampleLevel ⟨.int 3,rfl⟩,sampleLevel ⟨.int 4,rfl⟩]).map
      (fun reg => reg.nodes.entries.map fun e => (e.1,e.2.bind)) =
        .ok [("issues|id|L(level,Eq,3)",⟨[.int 3]⟩),("issues|id|L(level,Eq,4)",⟨[.int 4]⟩)] := by
    decide +kernel
  cases hreg : sampleCollected [sampleLevel ⟨.int 3,rfl⟩,sampleLevel ⟨.int 4,rfl⟩] with
  | error e =>
    rw [hreg] at hnodes
    cases hnodes
  | ok reg =>
    rw [hreg] at hnodes
    have hentry : ∀ {sig node}, reg.nodes.get? sig = some node → (sig,node.bind) ∈
        [("issues|id|L(level,Eq,3)",(⟨[.int 3]⟩ : Row)),("issues|id|L(level,Eq,4)",⟨[.int 4]⟩)] := by
      intro sig node hnode
      rw [← Except.ok.inj hnodes]
      exact List.mem_map.mpr ⟨_,(AssocMap.mem_entries _ _ _).mpr hnode,rfl⟩
    have hapart : ∀ l l' : ℤ, TemplatesApart .positional (sampleLevel ⟨.int l,rfl⟩) (sampleLevel ⟨.int l',rfl⟩) :=
      fun l l' => ⟨fun _ => ⟨rfl,rfl,rfl⟩,nofun⟩
    refine ⟨reg,rfl,((templates_dispatch .positional fun _ => none).2.2 sampleSchemas _ reg hreg ?_ .sample
      panicEval _ "1" _ (by decide +kernel)).mpr ?_⟩
    · intro q hq q' hq' _
      simp only [List.mem_cons,List.not_mem_nil,or_false] at hq hq'
      rcases hq with rfl | rfl <;> rcases hq' with rfl | rfl <;> exact hapart _ _
    · intro sig node sig' node' hnode hnode' _ hbind _
      have h := hentry hnode
      have h' := hentry hnode'
      simp only [List.mem_cons,Prod.mk.injEq,List.not_mem_nil,or_false] at h h'
      rcases h with ⟨rfl,hb⟩ | ⟨rfl,hb⟩ <;> rcases h' with ⟨rfl,hb'⟩ | ⟨rfl,hb'⟩ <;>
        first | rfl | (rw [hb,hb'] at hbind; exact absurd hbind (by decide))

/-- A level that is given once as a number and once as a text is one bind, which leads to the second node
only. -/
theorem sample_templates_collide : ¬∀ (schemas : String → Option TableSchema) (qs : List SubqueryJson)
    (reg : SubqueryRegistry), collectAll .positional (fun _ => none) schemas qs = .ok reg →
    ∀ (ts : TableSchema) (ev : SubqueryEval) (delta : Delta) (pk : String) (row : Row),
      (latestRowsByPk ts delta).get? pk = some (row,true) →
      ∀ sig node, reg.nodes.get? sig = some node →
        (reg.Assigned ts ev delta pk row sig node ↔ node.pred.evalCtx row ev = .true) := by
  intro h
  have hnode : (sampleCollected [sampleLevel ⟨.int 3,rfl⟩,sampleLevel ⟨.string "3",rfl⟩]).map
      (fun reg => (reg.nodes.get? "issues|id|L(level,Eq,3)").map fun node =>
        (node.templateKey,node.pred.matchesRow ⟨[.int 1,.int 3]⟩)) =
      .ok (some ("issues|id|P(level)|A()",true)) := by
    decide +kernel
  have hpresent : (sampleCollected [sampleLevel ⟨.int 3,rfl⟩,sampleLevel ⟨.string "3",rfl⟩]).map
      (fun reg => reg.templatePresent .sample panicEval "issues|id|P(level)|A()" [(⟨[.int 1,.int 3]⟩,1)]) =
      .ok [("1",some ("issues|id|L(level,Eq,\"3\")",.int 1))] := by
    decide +kernel
  cases hreg : sampleCollected [sampleLevel ⟨.int 3,rfl⟩,sampleLevel ⟨.string "3",rfl⟩] with
  | error e =>
    rw [hreg] at hnode
    cases hnode
  | ok reg =>
    rw [hreg] at hnode hpresent
    obtain ⟨node,hget,hvals⟩ := Option.map_eq_some_iff.mp (Except.ok.inj hnode)
    obtain ⟨hkey,htrue⟩ := Prod.mk.inj hvals
    have hassigned := (h sampleSchemas _ reg hreg .sample panicEval [(⟨[.int 1,.int 3]⟩,1)] "1"
      ⟨[.int 1,.int 3]⟩ (by decide +kernel) _ node hget).mpr (CompiledPredicate.matchesRow_iff.mp htrue)
    have hrows := Except.ok.inj hpresent
    dsimp only at hrows
    rw [Assigned,hkey,hrows,List.mem_singleton] at hassigned
    simp at hassigned

end SubqueryRegistry
end ElectricCircuits
