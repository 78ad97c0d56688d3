import ElectricCircuits.Lib.AssocMap
import Mathlib.Data.Int.Notation
import Mathlib.Data.List.Nodup
import Mathlib.Tactic.SplitIfs

/-! The reconciliation law of the sources host: what has to be started, stopped and restarted so that the
running sources are the desired ones. -/
namespace ElectricCircuits

/-- A desired source, as far as reconciling reads it. -/
structure SourceRow where
  sourceId : String
  revision : ℤ
  deriving DecidableEq

inductive PlanAction where
  | start (row : SourceRow)
  | stop (sourceId : String)
  | restart (row : SourceRow)
  deriving DecidableEq

def PlanAction.sourceId : PlanAction → String
  | start row | restart row => row.sourceId
  | stop sourceId => sourceId

/-- `validate_rows`: no id comes twice. -/
def validRows (rows : List SourceRow) : Prop := (rows.map (·.sourceId)).Nodup

def desiredRows (rows : List SourceRow) : AssocMap String SourceRow :=
  rows.foldl (fun m row => m.insert row.sourceId row) .empty

/-- `running` has the revision of every running source. -/
def reconcile (running : AssocMap String ℤ) (rows : List SourceRow) : List PlanAction :=
  running.entries.filterMap (fun e =>
    match (desiredRows rows).get? e.1 with
    | none => some (.stop e.1)
    | some row => if row.revision ≠ e.2 then some (.restart row) else none) ++
  (desiredRows rows).entries.filterMap fun e =>
    if (running.get? e.1).isNone then some (.start e.2) else none

/-- A failed source is started again even if its revision is the same. -/
def reconcileRefresh (running failed : AssocMap String ℤ) (rows : List SourceRow) : List PlanAction :=
  reconcile (failed.keys.foldl (·.erase ·) running) rows

/-- Rows without a repeated id are looked up by id. -/
lemma get?_desiredRows {rows : List SourceRow} (h : validRows rows) {id : String} {row : SourceRow} :
    (desiredRows rows).get? id = some row ↔ row ∈ rows ∧ row.sourceId = id := by
  have hgen : ∀ m : AssocMap String SourceRow, (∀ r ∈ rows, m.get? r.sourceId = none) →
      ((rows.foldl (fun m row => m.insert row.sourceId row) m).get? id = some row ↔
        row ∈ rows ∧ row.sourceId = id ∨ m.get? id = some row) := by
    induction rows with
    | nil => simp
    | cons r rows ih =>
      intro m hm
      obtain ⟨hnew,hrest⟩ := List.nodup_cons.mp h
      have hother : ∀ r' ∈ rows, r'.sourceId ≠ r.sourceId :=
        fun r' hr' he => hnew (List.mem_map.mpr ⟨r',hr',he⟩)
      rw [List.foldl_cons,ih hrest _ fun r' hr' => ?_,AssocMap.get?_insert_eq]
      · split_ifs with he
        · subst he
          have hnone := hm r (.head _)
          have hnot : ¬(row ∈ rows ∧ row.sourceId = r.sourceId) := fun hr => hother row hr.1 hr.2
          simp only [hnone,List.mem_cons,hnot,false_or,or_false,reduceCtorEq,Option.some.injEq]
          constructor
          · rintro rfl
            exact ⟨.inl rfl,rfl⟩
          · rintro ⟨rfl | hr,hid⟩
            · rfl
            · exact absurd ⟨hr,hid⟩ hnot
        · have hne : ¬(row = r ∧ row.sourceId = id) := by
            rintro ⟨rfl,hid⟩
            exact he hid
          simp only [List.mem_cons,or_and_right,hne,false_or]
      · rw [AssocMap.get?_insert_eq,if_neg (hother r' hr').symm]
        exact hm r' (.tail _ hr')
  simpa [desiredRows] using hgen .empty fun _ _ => rfl

lemma get?_desiredRows_none {rows : List SourceRow} (h : validRows rows) {id : String} :
    (desiredRows rows).get? id = none ↔ ∀ row ∈ rows, row.sourceId ≠ id := by
  rw [Option.eq_none_iff_forall_not_mem]
  constructor
  · exact fun hn row hr he => hn row ((get?_desiredRows h).mpr ⟨hr,he⟩)
  · exact fun hn row hr => hn row ((get?_desiredRows h).mp hr).1 ((get?_desiredRows h).mp hr).2

/-- What is planned for one source. -/
lemma mem_reconcile {running : AssocMap String ℤ} {rows : List SourceRow} (h : validRows rows)
    {a : PlanAction} : a ∈ reconcile running rows ↔
      (∃ id revision, running.get? id = some revision ∧
        ((∀ row ∈ rows, row.sourceId ≠ id) ∧ a = .stop id ∨
          ∃ row ∈ rows, row.sourceId = id ∧ row.revision ≠ revision ∧ a = .restart row)) ∨
      ∃ row ∈ rows, running.get? row.sourceId = none ∧ a = .start row := by
  unfold reconcile
  rw [List.mem_append,List.mem_filterMap,List.mem_filterMap]
  refine or_congr ⟨?_,?_⟩ ⟨?_,?_⟩
  · rintro ⟨⟨id,revision⟩,he,ha⟩
    refine ⟨id,revision,(AssocMap.mem_entries _ _ _).mp he,?_⟩
    split at ha
    · exact .inl ⟨(get?_desiredRows_none h).mp ‹_›,(Option.some.inj ha).symm⟩
    · rename_i row hrow
      obtain ⟨hmem,hid⟩ := (get?_desiredRows h).mp hrow
      split_ifs at ha with hr
      · exact .inr ⟨row,hmem,hid,hr,(Option.some.inj ha).symm⟩
  · rintro ⟨id,revision,hget,⟨hnone,rfl⟩ | ⟨row,hmem,hid,hr,rfl⟩⟩
    · exact ⟨(id,revision),(AssocMap.mem_entries _ _ _).mpr hget,by
        simp [(get?_desiredRows_none h).mpr hnone]⟩
    · exact ⟨(id,revision),(AssocMap.mem_entries _ _ _).mpr hget,by
        simp [(get?_desiredRows h).mpr ⟨hmem,hid⟩,hr]⟩
  · rintro ⟨⟨id,row⟩,he,ha⟩
    obtain ⟨hmem,rfl⟩ := (get?_desiredRows h).mp ((AssocMap.mem_entries _ _ _).mp he)
    split_ifs at ha with hn
    · exact ⟨row,hmem,Option.isNone_iff_eq_none.mp hn,(Option.some.inj ha).symm⟩
  · rintro ⟨row,hmem,hn,rfl⟩
    refine ⟨(row.sourceId,row),(AssocMap.mem_entries _ _ _).mpr ((get?_desiredRows h).mpr ⟨hmem,rfl⟩),?_⟩
    simp [hn]

lemma get?_foldl_erase {β : Type*} (ids : List String) (m : AssocMap String β) (id : String) :
    (ids.foldl (·.erase ·) m).get? id = if id ∈ ids then none else m.get? id := by
  induction ids generalizing m with
  | nil => rfl
  | cons i ids ih =>
    rw [List.foldl_cons,ih,AssocMap.get?_erase]
    by_cases hi : id ∈ ids
    · simp [hi]
    · by_cases he : i = id
      · simp [he]
      · simp [hi,he,Ne.symm he]

lemma ids_sublist {α : Type*} (l : List (String × α)) (f : String × α → Option PlanAction)
    (hf : ∀ e ∈ l, ∀ a ∈ f e, a.sourceId = e.1) :
    ((l.filterMap f).map (·.sourceId)).Sublist (l.map Prod.fst) := by
  induction l with
  | nil => exact .slnil
  | cons e l ih =>
    obtain ⟨he,hrest⟩ := List.forall_mem_cons.mp hf
    cases ha : f e with
    | none =>
      rw [List.filterMap_cons_none ha]
      exact (ih hrest).cons _
    | some a =>
      rw [List.filterMap_cons_some ha,List.map_cons,List.map_cons,he a ha]
      exact (ih hrest).cons_cons _

/-- Every source is in the plan at most once. -/
lemma nodup_reconcile {running : AssocMap String ℤ} {rows : List SourceRow} (h : validRows rows) :
    ((reconcile running rows).map (·.sourceId)).Nodup := by
  have hkey : ∀ e ∈ (desiredRows rows).entries, e.2.sourceId = e.1 :=
    fun e he => ((get?_desiredRows h).mp ((AssocMap.mem_entries _ _ _).mp he)).2
  have hold := ids_sublist running.entries (fun e =>
    match (desiredRows rows).get? e.1 with
    | none => some (.stop e.1)
    | some row => if row.revision ≠ e.2 then some (.restart row) else none) (by
      intro e _ a ha
      split at ha
      · exact (Option.some.inj ha) ▸ rfl
      · split_ifs at ha
        · exact (Option.some.inj ha) ▸ ((get?_desiredRows h).mp ‹_›).2
        · cases ha)
  have hnew := ids_sublist (desiredRows rows).entries (fun e =>
    if (running.get? e.1).isNone then some (.start e.2) else none) (by
      intro e he a ha
      split_ifs at ha
      · exact (Option.some.inj ha) ▸ hkey e he
      · cases ha)
  unfold reconcile
  rw [List.map_append]
  refine List.nodup_append.mpr ⟨hold.nodup running.nodup_keys,
    hnew.nodup (desiredRows rows).nodup_keys,?_⟩
  intro id hid id' hid' he
  subst he
  obtain ⟨e,hmem,rfl⟩ := List.mem_map.mp (hold.subset hid)
  obtain ⟨a,ha,hsource⟩ := List.mem_map.mp hid'
  obtain ⟨e',he',ha⟩ := List.mem_filterMap.mp ha
  split_ifs at ha with hnone
  · obtain rfl := Option.some.inj ha
    have hget := (AssocMap.mem_entries _ _ _).mp hmem
    rw [← hsource,PlanAction.sourceId,hkey e' he',Option.isNone_iff_eq_none.mp hnone] at hget
    contradiction

end ElectricCircuits
