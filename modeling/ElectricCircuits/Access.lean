import ElectricCircuits.Predicate
import Mathlib.Data.List.Sort

/-! What a predicate is placed by: the key tuple of a pure conjunction of equalities, or else one
conjunct that every matching row satisfies. -/
namespace ElectricCircuits

/-- A necessary conjunct of a predicate. -/
inductive AccessLeaf where
  | eq (col : ℕ) (value : Value)
  | lower (col : ℕ) (value : Value) (strict : Bool)
  | upper (col : ℕ) (value : Value) (strict : Bool)

/-- The values of the key columns of a row. -/
def keyOf (row : Row) (cols : List ℕ) : Row := ⟨cols.map row.cell⟩

namespace AccessLeaf

def isEq : AccessLeaf → Bool
  | eq _ _ => true
  | _ => false

/-- What the conjunct asks of a row: a cell at the literal, or beyond the bound. -/
def Holds (row : Row) : AccessLeaf → Prop
  | eq col value => row.cell col ≠ .null ∧ (row.cell col == value) = true
  | lower col value strict => row.cell col ≠ .null ∧ value.code ≤ (row.cell col).code ∧
      (strict = true → value.code ≠ (row.cell col).code)
  | upper col value strict => row.cell col ≠ .null ∧ (row.cell col).code ≤ value.code ∧
      (strict = true → value.code ≠ (row.cell col).code)

end AccessLeaf

/-- The evaluation context of a predicate without subqueries; the source panics when it is asked. -/
def panicEval : SubqueryEval := ⟨fun _ _ => false,fun _ => false⟩

namespace CompiledPredicate

/-- Filter membership of a predicate without subqueries. -/
def matchesRow (p : CompiledPredicate) (row : Row) : Bool := p.matchesCtx row panicEval

lemma matchesRow_iff {p : CompiledPredicate} {row : Row} :
    p.matchesRow row = true ↔ p.evalCtx row panicEval = .true := by
  simp [matchesRow,matchesCtx]

mutual

/-- The equality leaves of a pure conjunction, in their order; none when another leaf is met. -/
def collectEq (acc : List (ℕ × Value)) : CompiledPredicate → Option (List (ℕ × Value))
  | .cmp col .eq value => if value = .null then none else some (acc ++ [(col,value)])
  | .and ps => collectEqs acc ps
  | _ => none

def collectEqs (acc : List (ℕ × Value)) : List CompiledPredicate → Option (List (ℕ × Value))
  | [] => some acc
  | p :: ps => (collectEq acc p).bind fun acc => collectEqs acc ps

end

/-- The key columns and literals of a conjunction of equalities over distinct columns. -/
def equalityTemplate (p : CompiledPredicate) : Option (List (ℕ × Value)) :=
  match collectEq [] p with
  | none => none
  | some acc =>
    if acc.isEmpty then none
    else
      let acc := acc.insertionSort fun a b => a.1 ≤ b.1
      if (acc.zip acc.tail).any fun w => w.1.1 == w.2.1 then none else some acc

def leafOf : CompiledPredicate → Option AccessLeaf
  | .cmp col op value =>
    if value = .null then none
    else
      match op with
      | .eq => some (.eq col value)
      | .gt => some (.lower col value true)
      | .gte => some (.lower col value false)
      | .lt => some (.upper col value true)
      | .lte => some (.upper col value false)
      | _ => none
  | _ => none

/-- An equality is better than a bound, and the first of a kind is kept. -/
def better (best : Option AccessLeaf) (l : AccessLeaf) : Bool :=
  match best with
  | none => true
  | some b => !b.isEq && l.isEq

mutual

def collectLeaf (best : Option AccessLeaf) : CompiledPredicate → Option AccessLeaf
  | .and ps => collectLeaves best ps
  | p =>
    match leafOf p with
    | some l => if better best l then some l else best
    | none => best

def collectLeaves (best : Option AccessLeaf) : List CompiledPredicate → Option AccessLeaf
  | [] => best
  | p :: ps => collectLeaves (collectLeaf best p) ps

end

/-- A single necessary conjunct of the predicate, for the index of standalone shapes. -/
def accessLeaf (p : CompiledPredicate) : Option AccessLeaf := collectLeaf none p

lemma eval_eq {row : Row} {ev : SubqueryEval} {col : ℕ} {value : Value} (hv : value ≠ .null) :
    (cmp col .eq value).evalCtx row ev = .true ↔ (row.cell col == value) = true := by
  have hnull : (Value.null == value) = true → value = .null := (Value.null_eqv value).mp
  rw [evalCtx,ElectricCircuits.cmp]
  split_ifs with h
  · rcases h with h | h
    · rw [h]
      exact ⟨nofun,fun he => absurd (hnull he) hv⟩
    · exact absurd h hv
  · exact Tri.fromBool_eq_true _

/-- A comparison that is TRUE satisfies its conjunct. -/
lemma leafOf_holds {row : Row} {ev : SubqueryEval} {p : CompiledPredicate} {l : AccessLeaf}
    (hl : leafOf p = some l) (hp : p.evalCtx row ev = .true) : l.Holds row := by
  cases p with
  | cmp col op value =>
    simp only [leafOf] at hl
    split_ifs at hl with hv
    have hcell : row.cell col ≠ .null := by
      intro h
      simp [evalCtx,ElectricCircuits.cmp,h] at hp
    cases op with
    | eq =>
      obtain rfl := Option.some.inj hl
      exact ⟨hcell,(eval_eq hv).mp hp⟩
    | neq => cases hl
    | like => cases hl
    | _ =>
      obtain rfl := Option.some.inj hl
      simp only [evalCtx,ElectricCircuits.cmp,hv,hcell,or_self,if_false,Value.ordering_eq] at hp
      split_ifs at hp with hrank
      · simp only [Tri.fromBool_eq_true] at hp
        cases hc : compare (row.cell col).code value.code <;> simp [hc] at hp <;>
          first
          | have hlt := compare_lt_iff_lt.mp hc
            exact ⟨hcell,hlt.le,fun _ => hlt.ne'⟩
          | have heq := compare_eq_iff_eq.mp hc
            exact ⟨hcell,heq.le,by rintro ⟨⟩⟩
          | have heq := compare_eq_iff_eq.mp hc
            exact ⟨hcell,heq.ge,by rintro ⟨⟩⟩
          | have hgt := compare_gt_iff_gt.mp hc
            exact ⟨hcell,hgt.le,fun _ => hgt.ne⟩
  | _ => cases hl

/-- The conjunct that is kept holds, if the one before did. -/
lemma collectLeaf_holds {row : Row} {ev : SubqueryEval} (p : CompiledPredicate) :
    ∀ best, (∀ b ∈ best, AccessLeaf.Holds row b) → p.evalCtx row ev = .true →
      ∀ l ∈ collectLeaf best p, l.Holds row := by
  have hleaf : ∀ p : CompiledPredicate, (∀ ps, p ≠ .and ps) → ∀ best,
      (∀ b ∈ best, AccessLeaf.Holds row b) → p.evalCtx row ev = .true →
        ∀ l ∈ collectLeaf best p, l.Holds row := by
    intro p hp best hbest heval l hl
    have hdef : collectLeaf best p = match leafOf p with
        | some l => if better best l then some l else best
        | none => best := by
      cases p with
      | and ps => exact absurd rfl (hp ps)
      | _ => rfl
    rw [hdef] at hl
    cases hlf : leafOf p with
    | none => exact hbest l (by simpa [hlf] using hl)
    | some x =>
      simp only [hlf] at hl
      split_ifs at hl
      · obtain rfl := Option.some.inj hl
        exact leafOf_holds hlf heval
      · exact hbest l hl
  induction p using CompiledPredicate.induction_on with
  | and ps ih =>
    intro best hbest heval l hl
    rw [evalCtx,evalAnd_eq_true] at heval
    rw [collectLeaf] at hl
    have hall := heval.2
    clear heval
    induction ps generalizing best with
    | nil => exact hbest l hl
    | cons p ps ihs =>
      simp only [List.forall_mem_cons] at ih hall
      exact ihs ih.2 (collectLeaf best p) (ih.1 best hbest hall.1) hl hall.2
  | _ => exact hleaf _ (by simp)

/-- The conjunct a predicate is placed by is necessary. -/
theorem accessLeaf_holds {p : CompiledPredicate} {row : Row} (hp : p.matchesRow row = true) :
    ∀ l ∈ p.accessLeaf, l.Holds row :=
  collectLeaf_holds p none (by simp) (matchesRow_iff.mp hp)

/-- The leaves of a pure conjunction say what it says. -/
lemma collectEq_spec {row : Row} {ev : SubqueryEval} (p : CompiledPredicate) :
    ∀ acc acc', collectEq acc p = some acc' → ∃ new, acc' = acc ++ new ∧
      (p.evalCtx row ev = .true ↔ ∀ w ∈ new, (row.cell w.1 == w.2) = true) := by
  induction p using CompiledPredicate.induction_on with
  | and ps ih =>
    intro acc acc' h
    rw [collectEq] at h
    have hlist : ∀ ps : List CompiledPredicate, (∀ p ∈ ps, ∀ acc acc', collectEq acc p = some acc' →
        ∃ new, acc' = acc ++ new ∧
          (p.evalCtx row ev = .true ↔ ∀ w ∈ new, (row.cell w.1 == w.2) = true)) →
        ∀ acc acc', collectEqs acc ps = some acc' → ∃ new, acc' = acc ++ new ∧
          ((∀ p ∈ ps, p.evalCtx row ev = .true) ↔ ∀ w ∈ new, (row.cell w.1 == w.2) = true) := by
      intro ps
      induction ps with
      | nil =>
        intro _ acc acc' h
        obtain rfl := Option.some.inj h
        exact ⟨[],by simp,by simp⟩
      | cons p ps ihs =>
        intro ih acc acc' h
        obtain ⟨hp,hps⟩ := List.forall_mem_cons.mp ih
        obtain ⟨mid,hmid,hrest⟩ := Option.bind_eq_some_iff.mp h
        obtain ⟨new,rfl,hnew⟩ := hp acc mid hmid
        obtain ⟨new',rfl,hnew'⟩ := ihs hps _ acc' hrest
        refine ⟨new ++ new',List.append_assoc _ _ _,?_⟩
        rw [List.forall_mem_cons,hnew,hnew',List.forall_mem_append]
    obtain ⟨new,hacc,hnew⟩ := hlist ps ih acc acc' h
    refine ⟨new,hacc,?_⟩
    rw [evalCtx,evalAnd_eq_true,← hnew]
    exact and_iff_right rfl
  | cmp col op value =>
    intro acc acc' h
    cases op with
    | eq =>
      rw [collectEq] at h
      split_ifs at h with hv
      obtain rfl := Option.some.inj h
      exact ⟨[(col,value)],rfl,by simpa using eval_eq hv⟩
    | _ => cases h
  | _ => exact fun _ _ h => by cases h

/-- A row matches a conjunction of equalities exactly when its key does. -/
theorem equalityTemplate_iff {p : CompiledPredicate} {pairs : List (ℕ × Value)}
    (h : p.equalityTemplate = some pairs) (row : Row) :
    p.matchesRow row = true ↔ (keyOf row (pairs.map (·.1)) == ⟨pairs.map (·.2)⟩) = true := by
  rw [equalityTemplate] at h
  cases hacc : collectEq [] p with
  | none =>
    rw [hacc] at h
    cases h
  | some acc =>
    simp only [hacc] at h
    split_ifs at h
    obtain rfl := Option.some.inj h
    obtain ⟨new,hnew,hiff⟩ := @collectEq_spec row panicEval p [] acc hacc
    rw [List.nil_append] at hnew
    subst hnew
    have hperm := List.perm_insertionSort (fun a b : ℕ × Value => a.1 ≤ b.1) acc
    rw [matchesRow_iff,hiff,Row.beq_iff_codes,keyOf]
    simp only [List.map_map,List.map_inj_left,Function.comp_apply,hperm.mem_iff,Value.beq_iff_code]

end CompiledPredicate
end ElectricCircuits
