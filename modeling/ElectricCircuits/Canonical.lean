import ElectricCircuits.PredicateJson
import Mathlib.Data.List.Perm.Basic

/-! When the canonical text of a predicate says what the predicate means. The text does not escape
names, so it is read back only where no name can be mistaken for another one with more text. -/
namespace ElectricCircuits
open Delimited

namespace PredicateJson

mutual

/-- One predicate is the other up to the order of the children of its ANDs and ORs. -/
def Reorder : PredicateJson → PredicateJson → Prop
  | .and ps,q => ∃ qs qs',q = .and qs ∧ ReorderAll ps qs' ∧ qs'.Perm qs
  | .or ps,q => ∃ qs qs',q = .or qs ∧ ReorderAll ps qs' ∧ qs'.Perm qs
  | .not p,q => ∃ q',q = .not q' ∧ Reorder p q'
  | .inSubquery col negated table project w,q =>
    ∃ w',q = .inSubquery col negated table project w' ∧ ReorderWhere w w'
  | .leaf col op v,q => q = .leaf col op v
  | .isNull col b,q => q = .isNull col b

def ReorderAll : List PredicateJson → List PredicateJson → Prop
  | [],qs => qs = []
  | p :: ps,qs => ∃ q qs',qs = q::qs' ∧ Reorder p q ∧ ReorderAll ps qs'

def ReorderWhere : Option PredicateJson → Option PredicateJson → Prop
  | none,w => w = none
  | some p,w => ∃ q,w = some q ∧ Reorder p q

end

lemma reorderAll_iff (ps qs : List PredicateJson) :
    ReorderAll ps qs ↔ List.Forall₂ Reorder ps qs := by
  induction ps generalizing qs with
  | nil => simp [ReorderAll]
  | cons p ps ih =>
    simp only [ReorderAll,ih,List.forall₂_cons_left_iff]
    constructor
    · rintro ⟨q,qs',rfl,hq,hqs⟩
      exact ⟨q,qs',hq,hqs,rfl⟩
    · rintro ⟨q,qs',hq,hqs,rfl⟩
      exact ⟨q,qs',rfl,hq,hqs⟩

/-- What the text of a node says before its constant or its inner WHERE. -/
inductive Head where
  | leaf (col : String) (op : LeafOp)
  | isNull (col : String) (isNull : Bool)
  | inSubquery (col : String) (negated : Bool) (table project : String)
  deriving DecidableEq

def Head.text : Head → List Char
  | .leaf col op => ("L(" ++ col ++ "," ++ op.debug ++ ",").toList
  | .isNull col b => ("U(" ++ col ++ "," ++ toString b ++ ")").toList
  | .inSubquery col negated table project =>
    ("I(" ++ col ++ "," ++ toString negated ++ "," ++ table ++ "|" ++ project ++ "|").toList

mutual

def heads : PredicateJson → List Head
  | .leaf col op _ => [.leaf col op]
  | .isNull col b => [.isNull col b]
  | .and ps => headsAll ps
  | .or ps => headsAll ps
  | .not p => heads p
  | .inSubquery col negated table project w => .inSubquery col negated table project :: headsWhere w

def headsAll : List PredicateJson → List Head
  | [] => []
  | p :: ps => heads p ++ headsAll ps

def headsWhere : Option PredicateJson → List Head
  | none => []
  | some p => heads p

end

/-- The text of one head is not the start of the text of another. -/
def HeadsApart (hs hs' : List Head) : Prop :=
  ∀ a ∈ hs, ∀ b ∈ hs', (a.text <+: b.text ∨ b.text <+: a.text) → a = b

lemma mem_headsAll {ps : List PredicateJson} {a : Head} :
    a ∈ headsAll ps ↔ ∃ p ∈ ps, a ∈ heads p := by
  induction ps with
  | nil => simp [headsAll]
  | cons p ps ih => simp [headsAll,ih]

lemma HeadsApart.child {ps qs : List PredicateJson} (h : HeadsApart (headsAll ps) (headsAll qs))
    {p q : PredicateJson} (hp : p ∈ ps) (hq : q ∈ qs) : HeadsApart p.heads q.heads :=
  fun a ha b hb => h a (mem_headsAll.mpr ⟨p,hp,ha⟩) b (mem_headsAll.mpr ⟨q,hq,hb⟩)

lemma HeadsApart.head_eq {hs hs' : List Head} (h : HeadsApart hs hs') {a b : Head} (ha : a ∈ hs)
    (hb : b ∈ hs') {s t : List Char} (hab : a.text ++ s = b.text ++ t) : a = b ∧ s = t := by
  obtain rfl := h a ha b hb (List.prefix_or_prefix_of_prefix ⟨s,rfl⟩ ⟨t,hab.symm⟩)
  exact ⟨rfl,List.append_cancel_left hab⟩

/-- No column name has a comma, and no table or projected column has a bar. -/
def Head.Plain : Head → Prop
  | .leaf col _ => ',' ∉ col.toList
  | .isNull col _ => ',' ∉ col.toList
  | .inSubquery col _ table project =>
    ',' ∉ col.toList ∧ '|' ∉ table.toList ∧ '|' ∉ project.toList

/-- A name without the mark ends at the first mark. -/
lemma name_cancel {q : Char} {x y : String} (hx : q ∉ x.toList) (hy : q ∉ y.toList)
    {s t : List Char} (h : x.toList ++ q::s = y.toList ++ q::t) : x = y ∧ s = t := by
  obtain ⟨hxy,hst⟩ := span_cancel (P := fun c => c ≠ q) (fun c hc he => hx (he ▸ hc))
    (fun c hc he => hy (he ▸ hc)) (by simp) (by simp) h
  exact ⟨String.toList_inj.mp hxy,(List.cons.inj hst).2⟩

lemma Head.eq_of_prefix {a b : Head} (ha : a.Plain) (hb : b.Plain) (h : a.text <+: b.text) :
    a = b := by
  obtain ⟨s,h⟩ := h
  cases a with
  | leaf col op =>
    cases b with
    | leaf col' op' =>
      simp only [text,String.toList_append,List.append_assoc] at h
      obtain ⟨rfl,hop⟩ := name_cancel ha hb (List.append_cancel_left h)
      cases op <;> cases op' <;> first | rfl | cases hop
    | _ => simp [text] at h
  | isNull col null =>
    cases b with
    | isNull col' null' =>
      simp only [text,String.toList_append,List.append_assoc] at h
      obtain ⟨rfl,hnull⟩ := name_cancel ha hb (List.append_cancel_left h)
      cases null <;> cases null' <;> first | rfl | cases hnull
    | _ => simp [text] at h
  | inSubquery col negated table project =>
    cases b with
    | inSubquery col' negated' table' project' =>
      simp only [text,String.toList_append,List.append_assoc] at h
      obtain ⟨rfl,hrest⟩ := name_cancel ha.1 hb.1 (List.append_cancel_left h)
      obtain rfl : negated = negated' := by
        cases negated <;> cases negated' <;> first | rfl | cases hrest
      have htable := List.append_cancel_left (List.append_cancel_left
        (List.append_cancel_left hrest))
      obtain ⟨rfl,hproject⟩ := name_cancel ha.2.1 hb.2.1 htable
      obtain ⟨rfl,-⟩ := name_cancel ha.2.2 hb.2.2 hproject
      rfl
    | _ => simp [text] at h

/-- Plain names are told apart. -/
theorem headsApart_of_plain {hs hs' : List Head} (h : ∀ a ∈ hs, a.Plain) (h' : ∀ b ∈ hs', b.Plain) :
    HeadsApart hs hs' := by
  intro a ha b hb hab
  rcases hab with hab | hab
  · exact Head.eq_of_prefix (h a ha) (h' b hb) hab
  · exact (Head.eq_of_prefix (h' b hb) (h a ha) hab).symm

/-- The letter that names the kind of a node. -/
def kind : PredicateJson → Char
  | .leaf .. => 'L'
  | .isNull .. => 'U'
  | .and _ => 'A'
  | .or _ => 'O'
  | .not _ => 'N'
  | .inSubquery .. => 'I'

end PredicateJson

open PredicateJson

variable (ft : FloatText)

lemma toList_leaf (col : String) (op : LeafOp) (v : Literal) :
    (canonicalPred ft (.leaf col op v)).toList =
      (Head.leaf col op).text ++ (v.json.chars ft ++ [')']) := by
  simp [canonicalPred,Head.text]

lemma toList_isNull (col : String) (b : Bool) :
    (canonicalPred ft (.isNull col b)).toList = (Head.isNull col b).text := by
  simp [canonicalPred,Head.text]

lemma toList_inSubquery (col : String) (negated : Bool) (table project : String)
    (w : Option PredicateJson) :
    (canonicalPred ft (.inSubquery col negated table project w)).toList =
      (Head.inSubquery col negated table project).text ++ ((canonicalWhere ft w).toList ++ [')']) := by
  simp [canonicalPred,Head.text]

lemma canonicalPred_kind (p : PredicateJson) : ∃ r, (canonicalPred ft p).toList = p.kind :: '(' :: r := by
  cases p <;> exact ⟨_,by simp [canonicalPred,kind]; rfl⟩

lemma canonicalPred_startsOff (p : PredicateJson) : StartsOff ')' (canonicalPred ft p).toList := by
  obtain ⟨r,hr⟩ := canonicalPred_kind ft p
  refine ⟨p.kind,_,hr,?_⟩
  cases p <;> simp [kind]

/-- The sorted children are the texts of the children in some order. -/
lemma exists_sorted (ps : List PredicateJson) :
    ∃ ps' : List PredicateJson, ps.Perm ps' ∧
      (canonicalPreds ft ps).insertionSort (· ≤ ·) = ps'.map (canonicalPred ft) := by
  have hself : List.Forall₂ (fun c p => c = canonicalPred ft p) (canonicalPreds ft ps) ps := by
    rw [canonicalPreds_eq,List.forall₂_map_left_iff,List.forall₂_same]
    exact fun _ _ => rfl
  obtain ⟨ps',hps',hperm⟩ := List.perm_comp_forall₂ (List.perm_insertionSort (· ≤ ·) _) hself
  refine ⟨ps',hperm.symm,?_⟩
  rw [← List.forall₂_eq_eq_eq,List.forall₂_map_right_iff]
  exact hps'

lemma toList_sortJoin (ps : List PredicateJson) :
    ∃ ps' : List PredicateJson, ps.Perm ps' ∧ (sortJoin (canonicalPreds ft ps)).toList =
      [','].intercalate (ps'.map fun p => (canonicalPred ft p).toList) := by
  obtain ⟨ps',hperm,hsort⟩ := exists_sorted ft ps
  refine ⟨ps',hperm,?_⟩
  rw [sortJoin,hsort,String.toList_intercalate,List.map_map]
  rfl

lemma sortJoin_congr {cs ds : List String} (h : cs.Perm ds) : sortJoin cs = sortJoin ds := by
  have hsort : cs.insertionSort (· ≤ ·) = ds.insertionSort (· ≤ ·) := by
    refine List.Perm.eq_of_pairwise (fun a b _ _ => le_antisymm) (List.pairwise_insertionSort _ _)
      (List.pairwise_insertionSort _ _) ?_
    exact (List.perm_insertionSort _ _).trans (h.trans (List.perm_insertionSort _ _).symm)
  rw [sortJoin,sortJoin,hsort]

lemma map_eq_of_reorderAll {α : Type*} {f : PredicateJson → α} {ps qs : List PredicateJson}
    (hf : ∀ p ∈ ps, ∀ q, p.Reorder q → f p = f q) (h : ReorderAll ps qs) : ps.map f = qs.map f := by
  induction ps generalizing qs with
  | nil =>
    rw [ReorderAll] at h
    rw [h]
  | cons p ps ih =>
    obtain ⟨q,qs',rfl,hpq,hrest⟩ := h
    rw [List.map_cons,List.map_cons,hf p (.head _) q hpq,ih (fun p hp => hf p (.tail _ hp)) hrest]

/-- The order of the children of ANDs and ORs does not show in the text. -/
theorem canonicalPred_eq_of_reorder (p q : PredicateJson) (h : p.Reorder q) :
    canonicalPred ft p = canonicalPred ft q := by
  have hall : ∀ ps qs qs' : List PredicateJson,
      (∀ p ∈ ps, ∀ q, p.Reorder q → canonicalPred ft p = canonicalPred ft q) →
      ReorderAll ps qs' → qs'.Perm qs →
      sortJoin (canonicalPreds ft ps) = sortJoin (canonicalPreds ft qs) := by
    intro ps qs qs' ih hps hperm
    rw [canonicalPreds_eq,canonicalPreds_eq,map_eq_of_reorderAll ih hps]
    exact sortJoin_congr (hperm.map _)
  induction p using PredicateJson.induction_on generalizing q with
  | leaf col op v =>
    rw [Reorder] at h
    rw [h]
  | isNull col b =>
    rw [Reorder] at h
    rw [h]
  | and ps ih =>
    obtain ⟨qs,qs',rfl,hps,hperm⟩ := h
    rw [canonicalPred,canonicalPred,hall ps qs qs' ih hps hperm]
  | or ps ih =>
    obtain ⟨qs,qs',rfl,hps,hperm⟩ := h
    rw [canonicalPred,canonicalPred,hall ps qs qs' ih hps hperm]
  | not p ih =>
    obtain ⟨q,rfl,hpq⟩ := h
    rw [canonicalPred,canonicalPred,ih q hpq]
  | inSubquery col negated table project w ih =>
    obtain ⟨w',rfl,hw⟩ := h
    cases w with
    | none =>
      rw [ReorderWhere] at hw
      rw [hw]
    | some p =>
      obtain ⟨q,rfl,hpq⟩ := hw
      rw [canonicalPred,canonicalPred,canonicalWhere,canonicalWhere,ih p rfl q hpq]

lemma kind_eq {p q : PredicateJson} {s t : List Char}
    (h : (canonicalPred ft p).toList ++ s = (canonicalPred ft q).toList ++ t) : p.kind = q.kind := by
  obtain ⟨r,hr⟩ := canonicalPred_kind ft p
  obtain ⟨r',hr'⟩ := canonicalPred_kind ft q
  rw [hr,hr'] at h
  exact (List.cons.inj h).1

/-- The children of an AND or an OR are read back, in some order. -/
lemma children_cancel {ps qs : List PredicateJson}
    (hread : ∀ p ∈ ps, ∀ q ∈ qs, ∀ s t : List Char,
      (canonicalPred ft p).toList ++ s = (canonicalPred ft q).toList ++ t → p.Reorder q ∧ s = t)
    {s t : List Char} (h : (sortJoin (canonicalPreds ft ps)).toList ++ ')'::s =
      (sortJoin (canonicalPreds ft qs)).toList ++ ')'::t) :
    (∃ qs',ReorderAll ps qs' ∧ qs'.Perm qs) ∧ s = t := by
  obtain ⟨ps',hps,hp⟩ := toList_sortJoin ft ps
  obtain ⟨qs',hqs,hq⟩ := toList_sortJoin ft qs
  rw [hp,hq] at h
  obtain ⟨hall,hst⟩ := join_cancel (R := Reorder) (by decide)
    (fun p _ => canonicalPred_startsOff ft p) (fun q _ => canonicalPred_startsOff ft q)
    (fun p hp q hq s t _ _ => hread p (hps.mem_iff.mpr hp) q (hqs.mem_iff.mpr hq) s t) h
  obtain ⟨rs,hrs,hperm⟩ := List.perm_comp_forall₂ hps hall
  exact ⟨⟨rs,(reorderAll_iff ps rs).mpr hrs,hperm.trans hqs.symm⟩,hst⟩

/-- Where heads are apart, a predicate is read back from its text up to the order of children. -/
theorem canonicalPred_cancel (p q : PredicateJson) (hapart : HeadsApart p.heads q.heads)
    {s t : List Char} (h : (canonicalPred ft p).toList ++ s = (canonicalPred ft q).toList ++ t) :
    p.Reorder q ∧ s = t := by
  have hkind := (kind_eq ft h).symm
  have hparen : ∀ {u : List Char}, Json.NumberEnds (')'::u) := by
    rintro u c ⟨⟩
    decide
  induction p using PredicateJson.induction_on generalizing q s t with
  | leaf col op v =>
    cases q with
    | leaf col' op' v' =>
      simp only [toList_leaf,List.append_assoc] at h
      obtain ⟨hhead,hrest⟩ := hapart.head_eq (.head _) (.head _) h
      cases hhead
      obtain ⟨hv,hst⟩ := Json.chars_cancel _ _ v.finite v'.finite hparen hparen hrest
      cases v
      cases v'
      cases hv
      exact ⟨rfl,(List.cons.inj hst).2⟩
    | _ => simp [kind] at hkind
  | isNull col b =>
    cases q with
    | isNull col' b' =>
      rw [toList_isNull,toList_isNull] at h
      obtain ⟨hhead,hst⟩ := hapart.head_eq (.head _) (.head _) h
      cases hhead
      exact ⟨rfl,hst⟩
    | _ => simp [kind] at hkind
  | and ps ih =>
    cases q with
    | and qs =>
      simp only [canonicalPred,String.toList_append,List.append_assoc] at h
      obtain ⟨⟨rs,hrs,hperm⟩,hst⟩ := children_cancel ft (fun p hp q hq s t hst =>
        ih p hp q (hapart.child hp hq) hst (kind_eq ft hst).symm) (List.append_cancel_left h)
      exact ⟨⟨qs,rs,rfl,hrs,hperm⟩,hst⟩
    | _ => simp [kind] at hkind
  | or ps ih =>
    cases q with
    | or qs =>
      simp only [canonicalPred,String.toList_append,List.append_assoc] at h
      obtain ⟨⟨rs,hrs,hperm⟩,hst⟩ := children_cancel ft (fun p hp q hq s t hst =>
        ih p hp q (hapart.child hp hq) hst (kind_eq ft hst).symm) (List.append_cancel_left h)
      exact ⟨⟨qs,rs,rfl,hrs,hperm⟩,hst⟩
    | _ => simp [kind] at hkind
  | not p ih =>
    cases q with
    | not q =>
      simp only [canonicalPred,String.toList_append,List.append_assoc] at h
      have h := List.append_cancel_left h
      obtain ⟨hpq,hst⟩ := ih q hapart h (kind_eq ft h).symm
      exact ⟨⟨q,rfl,hpq⟩,(List.cons.inj hst).2⟩
    | _ => simp [kind] at hkind
  | inSubquery col negated table project w ih =>
    cases q with
    | inSubquery col' negated' table' project' w' =>
      simp only [toList_inSubquery,List.append_assoc] at h
      obtain ⟨hhead,hrest⟩ := hapart.head_eq (.head _) (.head _) h
      cases hhead
      cases w with
      | none =>
        cases w' with
        | none => exact ⟨⟨none,rfl,rfl⟩,(List.cons.inj hrest).2⟩
        | some q => exact absurd hrest.symm (((canonicalPred_startsOff ft q).append _).ne s)
      | some p =>
        cases w' with
        | none => exact absurd hrest (((canonicalPred_startsOff ft p).append _).ne t)
        | some q =>
          obtain ⟨hpq,hst⟩ := ih p rfl q (fun a ha b hb => hapart a (.tail _ ha) b (.tail _ hb)) hrest
            (kind_eq ft hrest).symm
          exact ⟨⟨some q,rfl,q,rfl,hpq⟩,(List.cons.inj hst).2⟩
    | _ => simp [kind] at hkind

end ElectricCircuits
