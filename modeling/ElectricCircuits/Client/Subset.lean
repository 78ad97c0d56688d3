import ElectricCircuits.Client.SubsetOrder
import ElectricCircuits.Lib.AssocMap
import ElectricCircuits.Lib.Keyset

/-! The subset client: the loaded window, and what a delta of the feed, a later page and a reseed do to it. -/
namespace ElectricCircuits

inductive FeedOp where
  | insert
  | update
  | upsert
  | delete
  deriving DecidableEq

/-- `StreamEnvelope`, its LSN as `lsnToU64` reads it. -/
structure FeedEnvelope (d : SubsetDef) where
  operation : FeedOp
  key : String
  value : Option d.TypedRow
  lsn : Option ℕ

structure SubsetResult (d : SubsetDef) where
  rows : List d.TypedRow
  lsn : Option ℕ

/-- The merge state: what is loaded, and the watermark of each row, kept for some that are gone too. -/
structure SubsetView where
  snapshotLsn : ℕ
  present : Finset String
  applied : AssocMap String ℕ

inductive MergeAction (d : SubsetDef) where
  | insert (value : d.TypedRow)
  | update (value : d.TypedRow)
  | delete (key : String)

namespace SubsetView
variable {d : SubsetDef}

def fresh (view : SubsetView) (key : String) (deltaLsn : Option ℕ) : Bool :=
  match deltaLsn with
  | none => true
  | some l =>
    match view.applied.get? key with
    | none => decide (view.snapshotLsn ≤ l)
    | some w => decide (w ≤ l)

/-- A row leaves: its watermark stays as a tombstone. -/
def remove (view : SubsetView) (key : String) (deltaLsn : Option ℕ) : SubsetView :=
  { view with
    present := view.present.erase key
    applied :=
      match deltaLsn with
      | some l => view.applied.insert key l
      | none => view.applied.erase key }

def mergeFeedDelta (view : SubsetView) (inView : d.TypedRow → Bool) (env : FeedEnvelope d) :
    SubsetView × Option (MergeAction d) :=
  if env.operation = .delete then
    if view.fresh env.key env.lsn then
      (view.remove env.key env.lsn,if env.key ∈ view.present then some (.delete env.key) else none)
    else (view,none)
  else
    match env.value with
    | none => (view,none)
    | some value =>
      if !view.fresh env.key env.lsn then (view,none)
      else if inView value then
        ({ view with
            present := insert env.key view.present
            applied :=
              match env.lsn with
              | some l => view.applied.insert env.key l
              | none => view.applied },
          some (if env.key ∈ view.present then .update value else .insert value))
      else if env.key ∈ view.present then
        (view.remove env.key env.lsn,some (.delete env.key))
      else (view,none)

end SubsetView

namespace SubsetDef
variable (d : SubsetDef)

/-- `getKey`. -/
def key (r : d.TypedRow) : String := d.text (r.row.cell d.pk)

end SubsetDef

/-- The collection after a write. -/
def MergeAction.write {d : SubsetDef} (F : String → Option d.TypedRow) :
    MergeAction d → String → Option d.TypedRow
  | insert value => Function.update F (d.key value) (some value)
  | update value => Function.update F (d.key value) (some value)
  | delete key => Function.update F key none

/-- The variables of `createSubset`, and the collection that they are kept for. -/
structure SubsetClient (d : SubsetDef) where
  view : SubsetView
  boundary : Option d.TypedRow
  lower : Option d.TypedRow
  ended : Bool
  windowGeneration : ℕ
  loadsInFlight : ℕ
  collection : String → Option d.TypedRow

namespace SubsetClient
variable {d : SubsetDef} (c : SubsetClient d)

def new : SubsetClient d := ⟨⟨0,∅,.empty⟩,none,none,false,0,0,fun _ => none⟩

def inView (row : d.TypedRow) : Bool :=
  if c.lower.any fun b => decide (d.cmp row b = .lt) then false
  else c.ended || c.boundary.all fun b => decide (d.cmp row b ≠ .gt)

def applyEnvelope (env : FeedEnvelope d) : SubsetClient d :=
  let (view,action) := c.view.mergeFeedDelta c.inView env
  { c with
    view := view
    collection := action.elim c.collection (MergeAction.write c.collection) }

/-- One page becomes the whole window. -/
def seedPage (page : SubsetResult d) : SubsetClient d :=
  let pageLsn := page.lsn.getD 0
  let keys := (page.rows.map d.key).toFinset
  let kept := fun k => if k ∈ c.view.present ∧ k ∉ keys then none else c.collection k
  { c with
    view := ⟨pageLsn,keys,page.rows.foldl (fun m r => m.insert (d.key r) pageLsn) .empty⟩
    boundary := page.rows.getLast?
    lower := if d.offset ≠ 0 then page.rows.head? else none
    ended := decide (d.limit = 0) || decide (page.rows.length < d.limit)
    windowGeneration := c.windowGeneration + 1
    collection := page.rows.foldl (fun F r => Function.update F (d.key r) (some r)) kept }

/-- A later page brings a row, unless what is known of it is newer. -/
def mergeRow (pageLsn : ℕ) (c : SubsetClient d) (r : d.TypedRow) : SubsetClient d :=
  if (c.view.applied.get? (d.key r)).any fun w => decide (pageLsn < w) then c
  else
    { c with
      view := { c.view with
        present := insert (d.key r) c.view.present
        applied := c.view.applied.insert (d.key r) pageLsn }
      collection := Function.update c.collection (d.key r) (some r) }

/-- Watermarks of rows that are gone are kept only while a page is in flight. -/
def finishLoad : SubsetClient d :=
  let c := { c with loadsInFlight := c.loadsInFlight - 1 }
  if c.loadsInFlight = 0 then
    { c with view := { c.view with applied := c.view.applied.filter fun k _ => decide (k ∈ c.view.present) } }
  else c

/-- `loadMore` once it has its page. -/
def mergePage (pageSize : ℕ) (page : SubsetResult d) : SubsetClient d :=
  let merged := page.rows.foldl (mergeRow (page.lsn.getD c.view.snapshotLsn)) c
  { merged with
    boundary := if page.rows.isEmpty then c.boundary else page.rows.getLast?
    ended := if page.rows.length < pageSize then true else c.ended }

def loaded (generation pageSize : ℕ) (page : SubsetResult d) : SubsetClient d :=
  (if generation = c.windowGeneration then c.mergePage pageSize page else c).finishLoad

end SubsetClient

/-- A delta as the feed carries it: an upsert of a row that the filter selects, or a delete. -/
def FeedEnvelope.of {d : SubsetDef} (key : String) (value : Option d.TypedRow) (lsn : ℕ) : FeedEnvelope d :=
  ⟨if value.isNone then .delete else .upsert,key,value,some lsn⟩

namespace SubsetView

/-- What a delta of a row must reach. -/
def floor (view : SubsetView) (k : String) : ℕ := (view.applied.get? k).getD view.snapshotLsn

lemma fresh_some (view : SubsetView) (k : String) (l : ℕ) :
    view.fresh k (some l) = decide (view.floor k ≤ l) := by
  unfold fresh floor
  cases view.applied.get? k <;> rfl

end SubsetView

namespace SubsetClient
variable {d : SubsetDef} {c : SubsetClient d}

/-- All that is kept of a row. -/
def entry (c : SubsetClient d) (k : String) : Option d.TypedRow × Option ℕ × Prop :=
  (c.collection k,c.view.applied.get? k,k ∈ c.view.present)

/-- The window, and the page that it was seeded with. -/
def frame (c : SubsetClient d) : Option d.TypedRow × Option d.TypedRow × Bool × ℕ × ℕ :=
  (c.boundary,c.lower,c.ended,c.windowGeneration,c.view.snapshotLsn)

/-- The rows that are loaded are those of the collection. -/
def Consistent (c : SubsetClient d) : Prop := ∀ k, k ∈ c.view.present ↔ c.collection k ≠ none

lemma consistent_of_entry {c' : SubsetClient d} {k : String} (h : c'.entry k = c.entry k)
    (hk : k ∈ c.view.present ↔ c.collection k ≠ none) : k ∈ c'.view.present ↔ c'.collection k ≠ none := by
  have hcoll : c'.collection k = c.collection k := congrArg (·.1) h
  have hpresent : (k ∈ c'.view.present) = (k ∈ c.view.present) := congrArg (·.2.2) h
  rw [hcoll,hpresent]
  exact hk

lemma consistent_of_eq {k : String} {v : Option d.TypedRow} {w : Option ℕ} {p : Prop}
    (h : c.entry k = (v,w,p)) (hp : p ↔ v ≠ none) : k ∈ c.view.present ↔ c.collection k ≠ none := by
  have hcoll : c.collection k = v := congrArg (·.1) h
  have hpresent : (k ∈ c.view.present) = p := congrArg (·.2.2) h
  rw [hcoll,hpresent]
  exact hp

lemma applyEnvelope_stale {k : String} {v : Option d.TypedRow} {l : ℕ} (h : l < c.view.floor k) :
    c.applyEnvelope (.of k v l) = c := by
  have hstale : c.view.fresh k (some l) = false := by
    rw [SubsetView.fresh_some,decide_eq_false (Nat.not_le.mpr h)]
  cases v <;> simp [applyEnvelope,SubsetView.mergeFeedDelta,FeedEnvelope.of,hstale]

/-- A fresh delta of a row that is outside the window, or gone. -/
lemma applyEnvelope_out {k : String} {v : Option d.TypedRow} {l : ℕ} (h : c.view.floor k ≤ l)
    (hv : v.filter c.inView = none) (hnew : v.isSome → k ∈ c.view.present) :
    c.applyEnvelope (.of k v l) = { c with
      view := c.view.remove k (some l)
      collection := if k ∈ c.view.present then Function.update c.collection k none else c.collection } := by
  have hfresh : c.view.fresh k (some l) = true := by rw [SubsetView.fresh_some,decide_eq_true h]
  cases v with
  | none =>
    by_cases hp : k ∈ c.view.present <;>
      simp [applyEnvelope,SubsetView.mergeFeedDelta,FeedEnvelope.of,hfresh,hp,MergeAction.write]
  | some r =>
    have hout : c.inView r = false := by simpa [Option.filter] using hv
    simp [applyEnvelope,SubsetView.mergeFeedDelta,FeedEnvelope.of,hfresh,hout,hnew rfl,MergeAction.write]

/-- A fresh delta of a row that is neither in the window nor loaded. -/
lemma applyEnvelope_ignored {k : String} {r : d.TypedRow} {l : ℕ} (h : c.view.floor k ≤ l)
    (hout : c.inView r = false) (hnew : k ∉ c.view.present) : c.applyEnvelope (.of k (some r) l) = c := by
  have hfresh : c.view.fresh k (some l) = true := by rw [SubsetView.fresh_some,decide_eq_true h]
  simp [applyEnvelope,SubsetView.mergeFeedDelta,FeedEnvelope.of,hfresh,hout,hnew]

/-- A fresh delta of a row in the window. -/
lemma applyEnvelope_in {k : String} {r : d.TypedRow} {l : ℕ} (h : c.view.floor k ≤ l)
    (hin : c.inView r = true) : c.applyEnvelope (.of k (some r) l) = { c with
      view := { c.view with
        present := insert k c.view.present
        applied := c.view.applied.insert k l }
      collection := Function.update c.collection (d.key r) (some r) } := by
  have hfresh : c.view.fresh k (some l) = true := by rw [SubsetView.fresh_some,decide_eq_true h]
  by_cases hp : k ∈ c.view.present <;>
    simp [applyEnvelope,SubsetView.mergeFeedDelta,FeedEnvelope.of,hfresh,hin,hp,MergeAction.write]

lemma applyEnvelope_frame (c : SubsetClient d) (k : String) (v : Option d.TypedRow) (l : ℕ) :
    (c.applyEnvelope (.of k v l)).frame = c.frame := by
  by_cases h : c.view.floor k ≤ l
  · cases hv : v.filter c.inView with
    | some r =>
      obtain ⟨rfl,hin⟩ := Option.filter_eq_some_iff.mp hv
      rw [applyEnvelope_in h hin]
      rfl
    | none =>
      by_cases hnew : v.isSome → k ∈ c.view.present
      · rw [applyEnvelope_out h hv hnew]
        rfl
      · obtain ⟨hsome,hp⟩ := Classical.not_imp.mp hnew
        obtain ⟨r,rfl⟩ := Option.isSome_iff_exists.mp hsome
        rw [applyEnvelope_ignored h (by simpa [Option.filter] using hv) hp]
  · rw [applyEnvelope_stale (Nat.not_le.mp h)]

/-- A fresh delta: the row is as it says, if it is in the window, and its LSN is the watermark unless the row
neither was nor is loaded. -/
lemma applyEnvelope_fresh {k : String} {v : Option d.TypedRow} {l : ℕ} (hc : c.Consistent)
    (h : c.view.floor k ≤ l) (hkey : ∀ r ∈ v, d.key r = k) :
    ((c.applyEnvelope (.of k v l)).entry k = (v.filter c.inView,some l,v.filter c.inView ≠ none) ∨
      (c.applyEnvelope (.of k v l)).entry k = c.entry k ∧ c.collection k = none ∧ v.filter c.inView = none) ∧
      ∀ k', k' ≠ k → (c.applyEnvelope (.of k v l)).entry k' = c.entry k' := by
  cases hv : v.filter c.inView with
  | some r =>
    obtain ⟨rfl,hin⟩ := Option.filter_eq_some_iff.mp hv
    rw [applyEnvelope_in h hin]
    refine ⟨.inl ?_,fun k' hk' => ?_⟩
    · simp [entry,hkey r rfl]
    · simp [entry,hkey r rfl,hk',AssocMap.get?_insert_eq,Ne.symm hk']
  | none =>
    by_cases hnew : v.isSome → k ∈ c.view.present
    · rw [applyEnvelope_out h hv hnew]
      refine ⟨.inl ?_,fun k' hk' => ?_⟩
      · by_cases hp : k ∈ c.view.present
        · simp [entry,SubsetView.remove,hp]
        · have hnone := not_not.mp ((hc k).not.mp hp)
          simp [entry,SubsetView.remove,hp,hnone]
      · by_cases hp : k ∈ c.view.present <;>
          simp [entry,SubsetView.remove,hp,hk',AssocMap.get?_insert_eq,Ne.symm hk']
    · obtain ⟨hsome,hp⟩ := Classical.not_imp.mp hnew
      obtain ⟨r,rfl⟩ := Option.isSome_iff_exists.mp hsome
      rw [applyEnvelope_ignored h (by simpa [Option.filter] using hv) hp]
      exact ⟨.inr ⟨rfl,not_not.mp ((hc k).not.mp hp),rfl⟩,fun _ _ => rfl⟩

/-- A page that was read at some LSN replaces what is known of a row. -/
def Accepts (c : SubsetClient d) (q : ℕ) (k : String) : Prop := ∀ w ∈ c.view.applied.get? k, w ≤ q

lemma mergeRow_frame (c : SubsetClient d) (q : ℕ) (r : d.TypedRow) : (c.mergeRow q r).frame = c.frame := by
  unfold mergeRow
  split_ifs <;> rfl

lemma mergeRow_entry_self {q : ℕ} {r : d.TypedRow} (h : c.Accepts q (d.key r)) :
    (c.mergeRow q r).entry (d.key r) = (some r,some q,True) := by
  have hnot : ¬((c.view.applied.get? (d.key r)).any fun w => decide (q < w)) = true := by
    rw [Option.any_eq_true]
    rintro ⟨w,hw,hlt⟩
    have hle := h w hw
    rw [decide_eq_true_eq] at hlt
    omega
  rw [mergeRow,if_neg hnot]
  simp [entry]

lemma mergeRow_entry_other {q : ℕ} {r : d.TypedRow} {k : String} (h : d.key r = k → ¬c.Accepts q k) :
    (c.mergeRow q r).entry k = c.entry k := by
  unfold mergeRow
  split_ifs with hany
  · rfl
  · by_cases hk : d.key r = k
    · refine absurd (fun w hw => ?_) (h hk)
      by_contra hlt
      rw [Option.any_eq_true] at hany
      exact hany ⟨w,hk ▸ hw,decide_eq_true (Nat.not_le.mp hlt)⟩
    · simp [entry,hk,Ne.symm hk,AssocMap.get?_insert_eq]

lemma accepts_of_entry {c' : SubsetClient d} {q : ℕ} {k : String} (h : c'.entry k = c.entry k) :
    c'.Accepts q k ↔ c.Accepts q k := by
  have happlied : c'.view.applied.get? k = c.view.applied.get? k := congrArg (·.2.1) h
  rw [Accepts,Accepts,happlied]

lemma foldl_mergeRow_frame (q : ℕ) (rows : List d.TypedRow) (c : SubsetClient d) :
    (rows.foldl (mergeRow q) c).frame = c.frame := by
  induction rows generalizing c with
  | nil => rfl
  | cons r rows ih => rw [List.foldl_cons,ih,mergeRow_frame]

/-- A row that no row of the page replaces. -/
lemma foldl_mergeRow_other {q : ℕ} {k : String} {rows : List d.TypedRow} {c : SubsetClient d}
    (h : ∀ r ∈ rows, d.key r = k → ¬c.Accepts q k) : (rows.foldl (mergeRow q) c).entry k = c.entry k := by
  induction rows generalizing c with
  | nil => rfl
  | cons r rows ih =>
    obtain ⟨hr,hrows⟩ := List.forall_mem_cons.mp h
    have hsame := mergeRow_entry_other hr
    rw [List.foldl_cons,ih fun r' hr' hk => (accepts_of_entry hsame).not.mpr (hrows r' hr' hk)]
    exact hsame

/-- A row that the page replaces. -/
lemma foldl_mergeRow_self {q : ℕ} {r : d.TypedRow} {rows : List d.TypedRow}
    (hkeys : (rows.map d.key).Nodup) {c : SubsetClient d} (hr : r ∈ rows) (h : c.Accepts q (d.key r)) :
    (rows.foldl (mergeRow q) c).entry (d.key r) = (some r,some q,True) := by
  induction rows generalizing c with
  | nil => cases hr
  | cons r' rows ih =>
    obtain ⟨hnew,hkeys⟩ := List.nodup_cons.mp hkeys
    rw [List.foldl_cons]
    rcases List.mem_cons.mp hr with rfl | hr
    · rw [foldl_mergeRow_other fun r' hr' hk => absurd (List.mem_map.mpr ⟨r',hr',hk⟩) hnew]
      exact mergeRow_entry_self h
    · have hne : d.key r' ≠ d.key r := fun hk => hnew (hk ▸ List.mem_map_of_mem hr)
      exact ih hkeys hr ((accepts_of_entry (mergeRow_entry_other fun hk => absurd hk hne)).mpr h)

lemma foldl_mergeRow_consistent {q : ℕ} (rows : List d.TypedRow) (hc : c.Consistent) :
    (rows.foldl (mergeRow q) c).Consistent := by
  induction rows generalizing c with
  | nil => exact hc
  | cons r rows ih =>
    refine ih fun k => ?_
    by_cases hk : d.key r = k ∧ c.Accepts q k
    · obtain ⟨rfl,hacc⟩ := hk
      exact consistent_of_eq (mergeRow_entry_self hacc) (by simp)
    · exact consistent_of_entry (mergeRow_entry_other fun hr hq => hk ⟨hr,hq⟩) (hc k)

/-- What the end of a load forgets: watermarks of rows that are gone. -/
lemma finishLoad_entry (c : SubsetClient d) (k : String) : c.finishLoad.frame = c.frame ∧
    (c.finishLoad.entry k = c.entry k ∨ k ∉ c.view.present ∧ c.finishLoad.entry k = (c.collection k,none,False)) := by
  unfold finishLoad
  dsimp only
  split_ifs with hzero
  · refine ⟨rfl,?_⟩
    by_cases hp : k ∈ c.view.present
    · left
      have hkept : (c.view.applied.filter fun k _ => decide (k ∈ c.view.present)).get? k =
          c.view.applied.get? k := by
        rw [AssocMap.get?_filter,decide_eq_true hp]
        cases c.view.applied.get? k <;> rfl
      simp [entry,hkept]
    · right
      simp [entry,AssocMap.get?_filter,hp]
  · exact ⟨rfl,.inl rfl⟩

lemma foldl_update_other {rows : List d.TypedRow} {k : String} (h : k ∉ rows.map d.key)
    (F : String → Option d.TypedRow) :
    rows.foldl (fun F r => Function.update F (d.key r) (some r)) F k = F k := by
  induction rows generalizing F with
  | nil => rfl
  | cons r rows ih =>
    rw [List.map_cons,List.mem_cons,not_or] at h
    rw [List.foldl_cons,ih h.2,Function.update_of_ne h.1]

lemma foldl_update_self {rows : List d.TypedRow} (hkeys : (rows.map d.key).Nodup) {r : d.TypedRow}
    (hr : r ∈ rows) (F : String → Option d.TypedRow) :
    rows.foldl (fun F r => Function.update F (d.key r) (some r)) F (d.key r) = some r := by
  induction rows generalizing F with
  | nil => cases hr
  | cons r' rows ih =>
    obtain ⟨hnew,hkeys⟩ := List.nodup_cons.mp hkeys
    rw [List.foldl_cons]
    rcases List.mem_cons.mp hr with rfl | hr
    · rw [foldl_update_other hnew,Function.update_self]
    · exact ih hkeys hr _

lemma foldl_insert_get? (rows : List d.TypedRow) (q : ℕ) (m : AssocMap String ℕ) (k : String) :
    (rows.foldl (fun m r => m.insert (d.key r) q) m).get? k =
      if k ∈ rows.map d.key then some q else m.get? k := by
  induction rows generalizing m with
  | nil => rfl
  | cons r rows ih =>
    rw [List.foldl_cons,ih,AssocMap.get?_insert_eq,List.map_cons]
    by_cases hk : d.key r = k
    · simp [hk]
    · simp [hk,Ne.symm hk]

/-- After a seed the collection is the page. -/
lemma seedPage_entry (page : SubsetResult d) (hc : c.Consistent) (hkeys : (page.rows.map d.key).Nodup)
    {q : ℕ} (hq : page.lsn = some q) :
    (∀ r ∈ page.rows, (c.seedPage page).entry (d.key r) = (some r,some q,True)) ∧
      ∀ k, k ∉ page.rows.map d.key → (c.seedPage page).entry k = (none,none,False) := by
  refine ⟨fun r hr => ?_,fun k hk => ?_⟩
  · have hm : d.key r ∈ page.rows.map d.key := List.mem_map_of_mem hr
    simp only [entry,seedPage,hq,Option.getD_some,foldl_insert_get?,foldl_update_self hkeys hr,
      List.mem_toFinset,hm,if_true]
  · have hgone : (if k ∈ c.view.present ∧ k ∉ (page.rows.map d.key).toFinset then none
        else c.collection k) = none := by
      by_cases hp : k ∈ c.view.present
      · rw [if_pos ⟨hp,by rwa [List.mem_toFinset]⟩]
      · rw [if_neg fun h => hp h.1]
        exact not_not.mp ((hc k).not.mp hp)
    rw [entry,seedPage]
    dsimp only
    rw [foldl_insert_get?,if_neg hk,foldl_update_other hk,hgone,List.mem_toFinset,eq_false hk]
    rfl

end SubsetClient

end ElectricCircuits
