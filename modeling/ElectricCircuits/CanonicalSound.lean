import ElectricCircuits.Canonical
import ElectricCircuits.SqlSemantics
import Mathlib.Data.Finset.Image

/-! Predicates and subqueries that share a canonical text: the compiled predicates evaluate alike, and
the subqueries denote one set of values. -/
namespace ElectricCircuits
open ThreeValued PredicateJson

variable (ft : FloatText)

/-- A collector that answers with the signature of the subquery, as the registry's does. -/
def Signs (collector : SubqueryCollector) : Prop :=
  ∀ table project w sig,collector table project w = .ok sig → sig = subquerySig ft table project w

lemma bind_eq_ok {ε α β : Type} {x : Except ε α} {f : α → Except ε β} {b : β} :
    (x >>= f) = .ok b ↔ ∃ a,x = .ok a ∧ f a = .ok b := by
  cases x with
  | ok a =>
    constructor
    · exact fun h => ⟨a,rfl,h⟩
    · rintro ⟨_,⟨⟩,h⟩
      exact h
  | error e =>
    constructor
    · exact fun h => by cases h
    · rintro ⟨_,h,_⟩
      cases h

namespace CompiledPredicate
variable {ft} {parseF64 : String → Option OrderedFloat} {ts : TableSchema}

lemma compileAll_eq_ok {collector : SubqueryCollector} {ps : List PredicateJson}
    {as : List CompiledPredicate} : compileAll parseF64 ts collector ps = .ok as ↔
      List.Forall₂ (fun p a => compileWith parseF64 ts collector p = .ok a) ps as := by
  induction ps generalizing as with
  | nil =>
    rw [compileAll,List.forall₂_nil_left_iff]
    exact ⟨fun h => by cases h; rfl,fun h => by rw [h]; rfl⟩
  | cons p ps ih =>
    simp only [compileAll,bind_eq_ok,ih,List.forall₂_cons_left_iff]
    constructor
    · rintro ⟨a,ha,as,has,⟨⟩⟩
      exact ⟨a,as,ha,has,rfl⟩
    · rintro ⟨a,as,ha,has,rfl⟩
      exact ⟨a,ha,as,has,rfl⟩

lemma truth_inj {a b : Tri} (h : a.truth = b.truth) : a = b := by
  cases a <;> cases b <;> first | rfl | cases h

/-- Predicates that were compiled from one predicate, up to the order of children, evaluate alike. -/
theorem evalCtx_eq_of_reorder {collector collector' : SubqueryCollector}
    (hc : Signs ft collector) (hc' : Signs ft collector') {p q : PredicateJson} (h : p.Reorder q)
    {a b : CompiledPredicate} (ha : compileWith parseF64 ts collector p = .ok a)
    (hb : compileWith parseF64 ts collector' q = .ok b) (row : Row) (ev : SubqueryEval) :
    a.evalCtx row ev = b.evalCtx row ev := by
  -- the truth values of reordered children are those of the children in another order
  have hall : ∀ ps qs qs' : List PredicateJson, ∀ as bs : List CompiledPredicate,
      (∀ p ∈ ps, ∀ q,p.Reorder q → ∀ a b, compileWith parseF64 ts collector p = .ok a →
        compileWith parseF64 ts collector' q = .ok b → a.evalCtx row ev = b.evalCtx row ev) →
      ReorderAll ps qs' → qs'.Perm qs → compileAll parseF64 ts collector ps = .ok as →
      compileAll parseF64 ts collector' qs = .ok bs →
      (as.map fun a => (a.evalCtx row ev).truth).Perm (bs.map fun b => (b.evalCtx row ev).truth) := by
    intro ps qs qs' as bs ih hps hperm has hbs
    rw [compileAll_eq_ok] at has hbs
    obtain ⟨bs',hbs',hperm'⟩ := List.perm_comp_forall₂ hperm hbs
    refine List.Perm.trans (List.Perm.of_eq ?_) (hperm'.map _)
    clear hbs hperm hperm'
    induction has generalizing qs' bs' with
    | nil =>
      rw [ReorderAll] at hps
      subst hps
      cases hbs'
      rfl
    | cons hpa _ ihs =>
      obtain ⟨q,qs'',rfl,hpq,hrest⟩ := hps
      cases hbs' with
      | cons hqb hbs'' =>
        rw [List.map_cons,List.map_cons,ih _ (.head _) q hpq _ _ hpa hqb,
          ihs qs'' (fun p hp => ih p (.tail _ hp)) hrest _ hbs'']
  induction p using PredicateJson.induction_on generalizing q a b with
  | leaf col op v =>
    rw [Reorder] at h
    subst h
    have hab : a = b := Except.ok.inj (ha.symm.trans hb)
    rw [hab]
  | isNull col null =>
    rw [Reorder] at h
    subst h
    have hab : a = b := Except.ok.inj (ha.symm.trans hb)
    rw [hab]
  | and ps ih =>
    obtain ⟨qs,qs',rfl,hps,hperm⟩ := h
    rw [compileWith,bind_eq_ok] at ha hb
    obtain ⟨as,has,⟨⟩⟩ := ha
    obtain ⟨bs,hbs,⟨⟩⟩ := hb
    have hvals := hall ps qs qs' as bs (fun p hp q h a b ha hb => ih p hp h ha hb) hps hperm has hbs
    apply truth_inj
    rw [evalCtx,evalCtx,truth_evalAnd _ _ _ (by decide),truth_evalAnd _ _ _ (by decide),
      Truth.conj_perm hvals]
  | or ps ih =>
    obtain ⟨qs,qs',rfl,hps,hperm⟩ := h
    rw [compileWith,bind_eq_ok] at ha hb
    obtain ⟨as,has,⟨⟩⟩ := ha
    obtain ⟨bs,hbs,⟨⟩⟩ := hb
    have hvals := hall ps qs qs' as bs (fun p hp q h a b ha hb => ih p hp h ha hb) hps hperm has hbs
    apply truth_inj
    rw [evalCtx,evalCtx,truth_evalOr _ _ _ (by decide),truth_evalOr _ _ _ (by decide),
      Truth.disj_perm hvals]
  | not p ih =>
    obtain ⟨q,rfl,hpq⟩ := h
    rw [compileWith,bind_eq_ok] at ha hb
    obtain ⟨a,ha,⟨⟩⟩ := ha
    obtain ⟨b,hb,⟨⟩⟩ := hb
    rw [evalCtx,evalCtx,ih hpq ha hb]
  | inSubquery col negated table project w ih =>
    have hsig := canonicalPred_eq_of_reorder ft _ _ h
    obtain ⟨w',rfl,hw⟩ := h
    simp only [compileWith,bind_eq_ok] at ha hb
    obtain ⟨i,hi,sig,hs,⟨⟩⟩ := ha
    obtain ⟨j,hj,sig',hs',⟨⟩⟩ := hb
    obtain rfl : i = j := Except.ok.inj (hi.symm.trans hj)
    have hww : subquerySig ft table project w = subquerySig ft table project w' := by
      cases w with
      | none =>
        rw [ReorderWhere] at hw
        rw [hw]
      | some p =>
        obtain ⟨q,rfl,hpq⟩ := hw
        rw [subquerySig,subquerySig,canonicalWhere,canonicalWhere,canonicalPred_eq_of_reorder ft p q hpq]
    rw [hc _ _ _ _ hs,hc' _ _ _ _ hs',hww]

end CompiledPredicate

/-- The tables that subqueries read. -/
structure Database where
  schema : String → Option TableSchema
  rows : String → List Row

namespace Database
variable (parseF64 : String → Option OrderedFloat) (db : Database)

/-- A comparison of a named column with a literal; what does not compile is unknown. -/
noncomputable def leafTruth (ts : TableSchema) (row : Row) (col : String) (op : LeafOp) (v : Json) :
    Truth :=
  match ts.columnIndex col with
  | .error _ => .maybe
  | .ok idx =>
    match Value.literalFromJson parseF64 v (ts.columnType idx) with
    | .error _ => .maybe
    | .ok c => sqlCmp (row.cell idx) op c

/-- The cells of one column. -/
def column (ts : TableSchema) (project : String) (rows : List Row) : Finset Value :=
  match ts.columnIndex project with
  | .error _ => ∅
  | .ok idx => (rows.map (·.cell idx)).toFinset

def cellNamed (ts : TableSchema) (row : Row) (col : String) : Value :=
  match ts.columnIndex col with
  | .error _ => .null
  | .ok idx => row.cell idx

mutual

/-- SQL's value of a predicate on a row, its subqueries answered from the database. -/
noncomputable def truth : PredicateJson → TableSchema → Row → Truth
  | .leaf col op v,ts,row => leafTruth parseF64 ts row col op v.json
  | .isNull col b,ts,row => Truth.ofBool (decide (cellNamed ts row col = .null) == b)
  | .and ps,ts,row => Truth.conj (truthAll ps ts row)
  | .or ps,ts,row => Truth.disj (truthAll ps ts row)
  | .not p,ts,row => (truth p ts row).neg
  | .inSubquery col negated table project w,ts,row =>
    let values :=
      match db.schema table with
      | none => ∅
      | some inner => column inner project ((db.rows table).filter (whereHolds w inner))
    let t := sqlIn (fun _ => values) "" (cellNamed ts row col)
    if negated then t.neg else t

noncomputable def truthAll : List PredicateJson → TableSchema → Row → List Truth
  | [],_,_ => []
  | p :: ps,ts,row => truth p ts row :: truthAll ps ts row

/-- A row is selected when the WHERE, if there is one, is true on it. -/
noncomputable def whereHolds : Option PredicateJson → TableSchema → Row → Bool
  | none,_,_ => true
  | some p,ts,row => decide (truth p ts row = .yes)

end

/-- The set of values that `SELECT project FROM table WHERE …` denotes. -/
noncomputable def selected (table project : String) (w : Option PredicateJson) : Finset Value :=
  match db.schema table with
  | none => ∅
  | some ts => column ts project ((db.rows table).filter (whereHolds parseF64 db w ts))

lemma truthAll_eq (ps : List PredicateJson) (ts : TableSchema) (row : Row) :
    truthAll parseF64 db ps ts row = ps.map fun p => truth parseF64 db p ts row := by
  induction ps with
  | nil => rfl
  | cons p ps ih => rw [truthAll,ih,List.map_cons]

/-- Reordered predicates mean the same in every database. -/
theorem truth_eq_of_reorder (p q : PredicateJson) (h : p.Reorder q) :
    truth parseF64 db p = truth parseF64 db q := by
  have hall : ∀ ps qs qs' : List PredicateJson,
      (∀ p ∈ ps, ∀ q,p.Reorder q → truth parseF64 db p = truth parseF64 db q) →
      ReorderAll ps qs' → qs'.Perm qs → ∀ ts row,
        (truthAll parseF64 db ps ts row).Perm (truthAll parseF64 db qs ts row) := by
    intro ps qs qs' ih hps hperm ts row
    rw [truthAll_eq,truthAll_eq,map_eq_of_reorderAll (fun p hp q hpq => by rw [ih p hp q hpq]) hps]
    exact hperm.map _
  induction p using PredicateJson.induction_on generalizing q with
  | leaf col op v =>
    rw [Reorder] at h
    rw [h]
  | isNull col b =>
    rw [Reorder] at h
    rw [h]
  | and ps ih =>
    obtain ⟨qs,qs',rfl,hps,hperm⟩ := h
    funext ts row
    rw [truth,truth,Truth.conj_perm (hall ps qs qs' ih hps hperm ts row)]
  | or ps ih =>
    obtain ⟨qs,qs',rfl,hps,hperm⟩ := h
    funext ts row
    rw [truth,truth,Truth.disj_perm (hall ps qs qs' ih hps hperm ts row)]
  | not p ih =>
    obtain ⟨q,rfl,hpq⟩ := h
    funext ts row
    rw [truth,truth,ih q hpq]
  | inSubquery col negated table project w ih =>
    obtain ⟨w',rfl,hw⟩ := h
    cases w with
    | none =>
      rw [ReorderWhere] at hw
      rw [hw]
    | some p =>
      obtain ⟨q,rfl,hpq⟩ := hw
      have hwhere : whereHolds parseF64 db (some p) = whereHolds parseF64 db (some q) := by
        funext ts row
        rw [whereHolds,whereHolds,ih p rfl q hpq]
      funext ts row
      rw [truth,truth,hwhere]

lemma selected_eq_of_reorder (table project : String) {w w' : Option PredicateJson}
    (h : ReorderWhere w w') :
    selected parseF64 db table project w = selected parseF64 db table project w' := by
  cases w with
  | none =>
    rw [ReorderWhere] at h
    rw [h]
  | some p =>
    obtain ⟨q,rfl,hpq⟩ := h
    have hwhere : whereHolds parseF64 db (some p) = whereHolds parseF64 db (some q) := by
      funext ts row
      rw [whereHolds,whereHolds,truth_eq_of_reorder parseF64 db p q hpq]
    rw [selected,selected,hwhere]

end Database

/-- The start of one subquery's signature is not the start of the other's, unless they read one
column of one table; and the heads in their WHEREs are apart. -/
def SourcesApart (table project : String) (w : Option PredicateJson) (table' project' : String)
    (w' : Option PredicateJson) : Prop :=
  (((table ++ "|" ++ project ++ "|").toList <+: (table' ++ "|" ++ project' ++ "|").toList ∨
    (table' ++ "|" ++ project' ++ "|").toList <+: (table ++ "|" ++ project ++ "|").toList) →
      table = table' ∧ project = project') ∧
  HeadsApart (headsWhere w) (headsWhere w')

lemma reorderWhere_of_subquerySig_eq {table project table' project' : String}
    {w w' : Option PredicateJson} (hapart : SourcesApart table project w table' project' w')
    (h : subquerySig ft table project w = subquerySig ft table' project' w') :
    table = table' ∧ project = project' ∧ ReorderWhere w w' := by
  have hl := congrArg String.toList h
  simp only [subquerySig,String.toList_append] at hl
  obtain ⟨rfl,rfl⟩ := hapart.1 (List.prefix_or_prefix_of_prefix
    ⟨_,by simp only [String.toList_append]; exact hl⟩ ⟨_,by simp only [String.toList_append]; rfl⟩)
  refine ⟨rfl,rfl,?_⟩
  have hw := List.append_cancel_left hl
  have hne : ∀ p, (canonicalPred ft p).toList ≠ [] := by
    intro p
    obtain ⟨r,hr⟩ := canonicalPred_kind ft p
    simp [hr]
  cases w with
  | none =>
    cases w' with
    | none => rfl
    | some q => exact absurd hw.symm (hne q)
  | some p =>
    cases w' with
    | none => exact absurd hw (hne p)
    | some q =>
      have htext : (canonicalPred ft p).toList ++ [] = (canonicalPred ft q).toList ++ [] :=
        congrArg (· ++ []) hw
      exact ⟨q,rfl,(canonicalPred_cancel ft p q hapart.2 htext).1⟩

/-- Where heads are apart, predicates of one text compile to predicates of one result, and
subqueries of one signature denote one set of values; children can be reordered anywhere. -/
theorem canonical_sound (parseF64 : String → Option OrderedFloat) :
    (∀ (ts : TableSchema) (collector collector' : SubqueryCollector) (p q : PredicateJson)
      (a b : CompiledPredicate), Signs ft collector → Signs ft collector' →
      CompiledPredicate.compileWith parseF64 ts collector p = .ok a →
      CompiledPredicate.compileWith parseF64 ts collector' q = .ok b →
      HeadsApart p.heads q.heads → canonicalPred ft p = canonicalPred ft q →
      ∀ (row : Row) (ev : SubqueryEval), a.evalCtx row ev = b.evalCtx row ev) ∧
    (∀ (db : Database) (table project table' project' : String) (w w' : Option PredicateJson),
      SourcesApart table project w table' project' w' →
      subquerySig ft table project w = subquerySig ft table' project' w' →
      db.selected parseF64 table project w = db.selected parseF64 table' project' w') ∧
    ∀ p q : PredicateJson,p.Reorder q → canonicalPred ft p = canonicalPred ft q := by
  refine ⟨?_,?_,canonicalPred_eq_of_reorder ft⟩
  · intro ts collector collector' p q a b hc hc' ha hb hapart hpq row ev
    have happend : (canonicalPred ft p).toList ++ [] = (canonicalPred ft q).toList ++ [] := by rw [hpq]
    obtain ⟨hreorder,-⟩ := canonicalPred_cancel ft p q hapart happend
    exact CompiledPredicate.evalCtx_eq_of_reorder hc hc' hreorder ha hb row ev
  · intro db table project table' project' w w' hapart hsig
    obtain ⟨rfl,rfl,hw⟩ := reorderWhere_of_subquerySig_eq ft hapart hsig
    exact db.selected_eq_of_reorder parseF64 table project hw

namespace PredicateJson

def equals (col : String) (i : ℤ) : PredicateJson := .leaf col .eq ⟨.int i,Json.finite_int i⟩

/-- `a = 1 AND b = 2`. -/
def sampleBoth : PredicateJson := .and [equals "a" 1,equals "b" 2]

/-- One column whose name reads like the text between two others. -/
def sampleOdd : PredicateJson := .and [equals "a,Eq,1),L(b" 2]

end PredicateJson

/-- A table with the three columns. -/
def TableSchema.sampleOdd : TableSchema where
  table := "public.issues"
  columns := [("a",.int),("b",.int),("a,Eq,1),L(b",.int)]
  pkCols := [0]
  names_nodup := by decide
  pk_ne_nil := TableSchema.sample.pk_ne_nil
  pk_lt := by decide

/-- The collector that only signs. -/
def signOnly : SubqueryCollector := fun table project w => .ok (subquerySig ft table project w)

lemma signs_signOnly : Signs ft (signOnly ft) := by
  intro table project w sig h
  exact (Except.ok.inj h).symm

theorem sample_canonical_sound :
    (∀ (row : Row) (ev : SubqueryEval),
      (CompiledPredicate.and [.cmp 0 .eq (.int 1),.cmp 1 .eq (.int 2)]).evalCtx row ev =
        (CompiledPredicate.and [.cmp 1 .eq (.int 2),.cmp 0 .eq (.int 1)]).evalCtx row ev) ∧
    ∀ db : Database,db.selected (fun _ => none) "public.issues" "a" (some sampleBoth) =
      db.selected (fun _ => none) "public.issues" "a" (some (.and [equals "b" 2,equals "a" 1])) := by
  have hplain : ∀ a ∈ [Head.leaf "a" .eq,.leaf "b" .eq],a.Plain := by
    simp [Head.Plain]
  have hplain' : ∀ a ∈ [Head.leaf "b" .eq,.leaf "a" .eq],a.Plain := by
    simp [Head.Plain]
  have hsound := canonical_sound FloatText.positional fun _ => none
  refine ⟨?_,fun db => ?_⟩
  · exact hsound.1 .sampleOdd _ _ sampleBoth (.and [equals "b" 2,equals "a" 1]) _ _
      (signs_signOnly _) (signs_signOnly _) (by rfl) (by rfl)
      (headsApart_of_plain hplain hplain') (by decide +kernel)
  · exact hsound.2.1 db "public.issues" "a" "public.issues" "a" _ _
      ⟨fun _ => ⟨rfl,rfl⟩,headsApart_of_plain hplain hplain'⟩ (by decide +kernel)

/-- Two predicates with one canonical text, one true and the other false on a row. -/
theorem sample_canonical_collides : ¬∀ (ts : TableSchema) (p q : PredicateJson)
    (a b : CompiledPredicate),
    CompiledPredicate.compileWith (fun _ => none) ts (signOnly .positional) p = .ok a →
    CompiledPredicate.compileWith (fun _ => none) ts (signOnly .positional) q = .ok b →
    canonicalPred .positional p = canonicalPred .positional q →
    ∀ (row : Row) (ev : SubqueryEval), a.evalCtx row ev = b.evalCtx row ev := by
  intro h
  have heval := h .sampleOdd sampleBoth .sampleOdd
    (.and [.cmp 0 .eq (.int 1),.cmp 1 .eq (.int 2)]) (.and [.cmp 2 .eq (.int 2)]) (by rfl) (by rfl)
    (by decide +kernel) ⟨[.int 1,.int 2,.int 0]⟩ ⟨fun _ _ => false,fun _ => false⟩
  exact absurd heval (by decide)

end ElectricCircuits
