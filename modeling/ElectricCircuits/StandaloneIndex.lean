import ElectricCircuits.Access
import ElectricCircuits.Lib.Buckets
import ElectricCircuits.Output
import Mathlib.Data.List.Dedup

/-! The index of standalone shapes by a necessary conjunct: hash buckets for equalities, ordered ones
for bounds, and a list of shapes without such a conjunct. -/
namespace ElectricCircuits

structure StandaloneIndex where
  eq : Buckets ℕ Value String
  lower : Buckets ℕ Value (String × Bool)
  upper : Buckets ℕ Value (String × Bool)
  scan : List String
  placed : AssocMap String (Option AccessLeaf)

namespace StandaloneIndex

def empty : StandaloneIndex := ⟨.empty,.empty,.empty,[],.empty⟩

def insert (idx : StandaloneIndex) (sid : String) (pred : CompiledPredicate) : StandaloneIndex :=
  let leaf := pred.accessLeaf
  let idx : StandaloneIndex :=
    match leaf with
    | some (.eq col value) => { idx with eq := idx.eq.put col value sid }
    | some (.lower col value strict) => { idx with lower := idx.lower.put col value (sid,strict) }
    | some (.upper col value strict) => { idx with upper := idx.upper.put col value (sid,strict) }
    | none => { idx with scan := idx.scan ++ [sid] }
  { idx with placed := idx.placed.insert sid leaf }

def remove (idx : StandaloneIndex) (sid : String) : StandaloneIndex :=
  match idx.placed.get? sid with
  | none => idx
  | some leaf =>
    let idx : StandaloneIndex := { idx with placed := idx.placed.erase sid }
    match leaf with
    | some (.eq col value) => { idx with eq := idx.eq.edit col value (·.filter (· ≠ sid)) }
    | some (.lower col value _) => { idx with lower := idx.lower.edit col value (·.filter (·.1 ≠ sid)) }
    | some (.upper col value _) => { idx with upper := idx.upper.edit col value (·.filter (·.1 ≠ sid)) }
    | none => { idx with scan := idx.scan.filter (· ≠ sid) }

/-- The shapes of a bucket that a cell at or beyond its bound reaches. -/
def reached (cell bound : Value) (sids : List (String × Bool)) : List String :=
  (sids.filter fun s => !(bound == cell && s.2)).map (·.1)

/-- What one row reaches through the three kinds of buckets. -/
def rowHits (idx : StandaloneIndex) (row : Row) : List String :=
  (idx.eq.entries.flatMap fun (col,byVal) =>
    match row.cells[col]? with
    | none => []
    | some cell => (byVal.get? cell).getD []) ++
  (idx.lower.entries.flatMap fun (col,bounds) =>
    match row.cells[col]? with
    | none => []
    | some cell =>
      if cell = .null then []
      else (bounds.entries.filter fun b => b.1.code ≤ cell.code).flatMap fun b =>
        reached cell b.1 b.2) ++
  idx.upper.entries.flatMap fun (col,bounds) =>
    match row.cells[col]? with
    | none => []
    | some cell =>
      if cell = .null then []
      else (bounds.entries.filter fun b => cell.code ≤ b.1.code).flatMap fun b =>
        reached cell b.1 b.2

/-- The shapes that can match a row of the delta, each once. -/
def candidates (idx : StandaloneIndex) (delta : Delta) : List String :=
  (idx.scan ++ delta.flatMap fun t => idx.rowHits t.1).dedup

/-- A shape stands in the bucket of a conjunct, or on the scan list. -/
def Stored (idx : StandaloneIndex) (sid : String) : Option AccessLeaf → Prop
  | some (.eq col value) => sid ∈ idx.eq.bucket col value
  | some (.lower col value strict) => (sid,strict) ∈ idx.lower.bucket col value
  | some (.upper col value strict) => (sid,strict) ∈ idx.upper.bucket col value
  | none => sid ∈ idx.scan

end StandaloneIndex

/-- Conjuncts that lead to the same bucket. -/
def AccessLeaf.Same : Option AccessLeaf → Option AccessLeaf → Prop
  | some (.eq c v),some (.eq c' v') => c = c' ∧ (v == v') = true
  | some (.lower c v s),some (.lower c' v' s') => c = c' ∧ (v == v') = true ∧ s = s'
  | some (.upper c v s),some (.upper c' v' s') => c = c' ∧ (v == v') = true ∧ s = s'
  | none,none => True
  | _,_ => False

namespace StandaloneIndex

@[simp] lemma same_refl (l : Option AccessLeaf) : AccessLeaf.Same l l := by
  cases l with
  | none => trivial
  | some l => cases l <;> simp [AccessLeaf.Same]

lemma stored_insert (idx : StandaloneIndex) (sid sid' : String) (pred : CompiledPredicate)
    (leaf : Option AccessLeaf) : (idx.insert sid pred).Stored sid' leaf ↔
      idx.Stored sid' leaf ∨ sid' = sid ∧ AccessLeaf.Same pred.accessLeaf leaf := by
  rw [insert]
  rcases pred.accessLeaf with _ | _ | _ | _ <;> rcases leaf with _ | _ | _ | _ <;>
    simp only [Stored,AccessLeaf.Same,Buckets.bucket_put,beq_iff_eq] <;>
    first
    | split_ifs with h <;> simp_all <;> tauto
    | simp

/-- Removing a shape that stands where it was placed takes it out and leaves the others. -/
lemma stored_remove {idx : StandaloneIndex} {sid : String} {placed : Option AccessLeaf}
    (hp : idx.placed.get? sid = some placed)
    (h : ∀ leaf, idx.Stored sid leaf → AccessLeaf.Same placed leaf) (sid' : String)
    (leaf : Option AccessLeaf) :
    (idx.remove sid).Stored sid' leaf ↔ idx.Stored sid' leaf ∧ sid' ≠ sid := by
  have hout : (idx.remove sid).Stored sid' leaf ↔
      idx.Stored sid' leaf ∧ ¬(sid' = sid ∧ AccessLeaf.Same placed leaf) := by
    have hleaf := h leaf
    rw [remove,hp]
    rcases placed with _ | _ | _ | _ <;> rcases leaf with _ | _ | _ | _ <;>
      simp only [Stored,AccessLeaf.Same,Buckets.bucket_filter,beq_iff_eq] at hleaf ⊢ <;>
      first
      | split_ifs with hb <;> simp_all
      | simp
    -- of a bound, the filter takes out the strict and the other one alike
    all_goals
      intro hmem
      refine ⟨fun hne he => absurd he hne,?_⟩
      rintro hs rfl
      exact hs rfl (hleaf hmem)
  rw [hout]
  refine and_congr_right fun hst => not_congr (and_iff_left_of_imp ?_)
  rintro rfl
  exact h leaf hst

/-- The buckets hold the shapes that are placed, each where it was placed. -/
structure Indexed (idx : StandaloneIndex) (preds : String → Option CompiledPredicate) : Prop where
  placed : ∀ sid, idx.placed.get? sid = (preds sid).map (·.accessLeaf)
  stored : ∀ sid leaf, idx.Stored sid leaf ↔ ∃ p, preds sid = some p ∧ AccessLeaf.Same p.accessLeaf leaf

lemma indexed_empty : Indexed empty fun _ => none where
  placed := by simp [empty]
  stored := by
    rintro sid (_ | _ | _ | _) <;> simp [Stored,empty]

theorem Indexed.insert {idx : StandaloneIndex} {preds : String → Option CompiledPredicate}
    (h : idx.Indexed preds) (sid : String) (hsid : preds sid = none) (p : CompiledPredicate) :
    (idx.insert sid p).Indexed fun s => if sid = s then some p else preds s where
  placed := by
    intro s
    have hpl : (idx.insert sid p).placed = idx.placed.insert sid p.accessLeaf := by
      rw [StandaloneIndex.insert]
      rcases p.accessLeaf with _ | _ | _ | _ <;> rfl
    rw [hpl,AssocMap.get?_insert,h.placed]
    by_cases hs : sid = s <;> simp [hs]
  stored := by
    intro s leaf
    rw [stored_insert,h.stored]
    by_cases hs : sid = s
    · subst hs
      simp [hsid]
    · simp [hs,Ne.symm hs]

theorem Indexed.remove {idx : StandaloneIndex} {preds : String → Option CompiledPredicate}
    (h : idx.Indexed preds) (sid : String) :
    (idx.remove sid).Indexed fun s => if sid = s then none else preds s where
  placed := by
    intro s
    have hpl : (idx.remove sid).placed.get? s = if sid = s then none else idx.placed.get? s := by
      rw [StandaloneIndex.remove]
      cases hp : idx.placed.get? sid with
      | none => by_cases hs : sid = s <;> simp [hs,← hp]
      | some placed =>
        have herase := idx.placed.get?_erase sid s
        rcases placed with _ | _ | _ | _ <;> simpa using herase
    rw [hpl,h.placed]
    split_ifs <;> rfl
  stored := by
    intro s leaf
    cases hp : preds sid with
    | none =>
      have hplaced := h.placed sid
      rw [hp,Option.map_none] at hplaced
      rw [StandaloneIndex.remove,hplaced,h.stored]
      by_cases hs : sid = s
      · subst hs
        simp [hp]
      · simp [hs]
    | some p =>
      have hplaced := h.placed sid
      rw [hp,Option.map_some] at hplaced
      rw [stored_remove hplaced fun leaf hst => by simpa [hp] using (h.stored sid leaf).mp hst,
        h.stored]
      by_cases hs : sid = s
      · subst hs
        simp
      · simp [hs,Ne.symm hs]

lemma mem_reached {cell bound : Value} {sids : List (String × Bool)} {sid : String} {strict : Bool}
    (h : (sid,strict) ∈ sids) (hs : strict = true → bound.code ≠ cell.code) :
    sid ∈ reached cell bound sids := by
  refine List.mem_map.mpr ⟨(sid,strict),List.mem_filter.mpr ⟨h,?_⟩,rfl⟩
  cases strict with
  | false => simp
  | true =>
    have hne : ¬(bound == cell) = true := fun he => hs rfl ((Value.beq_iff_code _ _).mp he)
    simp [hne]

lemma cell_eq {row : Row} {col : ℕ} (h : row.cell col ≠ .null) :
    row.cells[col]? = some (row.cell col) := by
  rw [Row.cell,List.getD_eq_getElem?_getD] at h ⊢
  cases hc : row.cells[col]? with
  | none => simp [hc] at h
  | some v => rfl

/-- A row reaches every shape whose conjunct holds on it. -/
theorem mem_rowHits {idx : StandaloneIndex} {sid : String} {leaf : AccessLeaf} {row : Row}
    (h : idx.Stored sid (some leaf)) (hl : leaf.Holds row) : sid ∈ idx.rowHits row := by
  cases leaf with
  | eq col value =>
    obtain ⟨col',byVal,v,xs,hcol,hmem,-,-,hget,hx⟩ := Buckets.exists_of_mem_bucket h
    obtain rfl := eq_of_beq hcol
    obtain ⟨hcell,heq⟩ := hl
    refine List.mem_append_left _ (List.mem_append_left _ (List.mem_flatMap.mpr ⟨_,hmem,?_⟩))
    simp only [cell_eq hcell]
    rw [byVal.get?_congr heq,hget]
    exact hx
  | lower col value strict =>
    obtain ⟨hcell,hle,hstrict⟩ := hl
    obtain ⟨col',byVal,v,xs,hcol,hmem,hv,hmem',-,hx⟩ := Buckets.exists_of_mem_bucket h
    obtain rfl := eq_of_beq hcol
    rw [Value.beq_iff_code] at hv
    refine List.mem_append_left _ (List.mem_append_right _ (List.mem_flatMap.mpr ⟨_,hmem,?_⟩))
    simp only [cell_eq hcell,if_neg hcell]
    refine List.mem_flatMap.mpr ⟨(v,xs),List.mem_filter.mpr ⟨hmem',by simpa [hv] using hle⟩,?_⟩
    exact mem_reached hx fun hs => by simpa [hv] using hstrict hs
  | upper col value strict =>
    obtain ⟨hcell,hle,hstrict⟩ := hl
    obtain ⟨col',byVal,v,xs,hcol,hmem,hv,hmem',-,hx⟩ := Buckets.exists_of_mem_bucket h
    obtain rfl := eq_of_beq hcol
    rw [Value.beq_iff_code] at hv
    refine List.mem_append_right _ (List.mem_flatMap.mpr ⟨_,hmem,?_⟩)
    simp only [cell_eq hcell,if_neg hcell]
    refine List.mem_flatMap.mpr ⟨(v,xs),List.mem_filter.mpr ⟨hmem',by simpa [hv] using hle⟩,?_⟩
    exact mem_reached hx fun hs => by simpa [hv] using hstrict hs

/-- No shape whose predicate matches a row of the delta is missed. -/
theorem Indexed.mem_candidates {idx : StandaloneIndex} {preds : String → Option CompiledPredicate}
    (h : idx.Indexed preds) {sid : String} {p : CompiledPredicate} (hp : preds sid = some p)
    {delta : Delta} {t : Row × ℤ} (ht : t ∈ delta) (hm : p.matchesRow t.1 = true) :
    sid ∈ idx.candidates delta := by
  refine List.mem_dedup.mpr ?_
  have hst : idx.Stored sid p.accessLeaf := (h.stored sid _).mpr ⟨p,hp,same_refl _⟩
  cases hl : p.accessLeaf with
  | none =>
    rw [hl] at hst
    exact List.mem_append_left _ hst
  | some leaf =>
    rw [hl] at hst
    have hhit := mem_rowHits hst (CompiledPredicate.accessLeaf_holds hm leaf hl)
    exact List.mem_append_right _ (List.mem_flatMap.mpr ⟨t,ht,hhit⟩)

lemma nodup_candidates (idx : StandaloneIndex) (delta : Delta) : (idx.candidates delta).Nodup :=
  List.nodup_dedup _

end StandaloneIndex
end ElectricCircuits
