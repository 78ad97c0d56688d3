import ElectricCircuits.Client.Subset
import Mathlib.Logic.Relation

/-! Runs of a subset client with its database, its feed and any number of pages in flight. -/
namespace ElectricCircuits
variable {d : SubsetDef}

/-- A table by key. -/
structure SubsetTable (d : SubsetDef) where
  get : String → Option d.TypedRow
  keyed : ∀ k r, get k = some r → d.key r = k

/-- A row of a commit: what stands under its key afterwards. -/
structure RowWrite (d : SubsetDef) where
  key : String
  value : Option d.TypedRow
  keyed : ∀ r ∈ value, d.key r = key

/-- A change that the feed carries. -/
structure FeedChange (d : SubsetDef) where
  key : String
  value : Option d.TypedRow
  lsn : ℕ

namespace SubsetTable

/-- The rows that match the filter. -/
def selected (t : SubsetTable d) (k : String) : Option d.TypedRow := (t.get k).filter (d.selects ·.row)

def write (t : SubsetTable d) (w : RowWrite d) : SubsetTable d where
  get := Function.update t.get w.key w.value
  keyed := by
    intro k r hr
    by_cases hk : k = w.key
    · subst hk
      rw [Function.update_self] at hr
      exact w.keyed r hr
    · rw [Function.update_of_ne hk] at hr
      exact t.keyed k r hr

/-- A commit, and the changes that the feed carries of it: upserts of rows that match, deletes of rows that
did. -/
def commit (lsn : ℕ) (t : SubsetTable d) : List (RowWrite d) → SubsetTable d × List (FeedChange d)
  | [] => (t,[])
  | w::ws =>
    let value := w.value.filter (d.selects ·.row)
    let (t',changes) := (t.write w).commit lsn ws
    (t',if value.isNone && (t.selected w.key).isNone then changes else ⟨w.key,value,lsn⟩::changes)

end SubsetTable

/-- A `loadMore` in flight, with its page once the database has answered. -/
structure SubsetLoad (d : SubsetDef) where
  generation : ℕ
  pageSize : ℕ
  cursor : d.TypedRow
  page : Option (List d.TypedRow × ℕ)

/-- The table and the end of its log, the feed, and the client: how far its tail is, the offset and the page of
a seed under way, and the pages in flight. -/
structure SubsetSystem (d : SubsetDef) where
  table : SubsetTable d
  lsn : ℕ
  feed : List (FeedChange d)
  client : SubsetClient d
  tail : Option ℕ
  seeding : Option (ℕ × Option (List d.TypedRow × ℕ))
  loads : List (SubsetLoad d)

namespace SubsetSystem

def new (table : SubsetTable d) (lsn : ℕ) : SubsetSystem d := ⟨table,lsn,[],.new,none,none,[]⟩

/-- The steps that a condition will be put on, and the others. -/
inductive Act (d : SubsetDef) where
  | querySeed (rows : List d.TypedRow)
  | arrive (load : SubsetLoad d) (rows : List d.TypedRow) (lsn : ℕ)
  | other

/-- One step. A page that is read at an LSN shows exactly the commits below it. -/
inductive Step : SubsetSystem d → Act d → SubsetSystem d → Prop where
  | commit (s : SubsetSystem d) (ws : List (RowWrite d)) {l lsn : ℕ} (hl : s.lsn ≤ l) (hlsn : l < lsn) :
    Step s .other { s with
      table := (s.table.commit l ws).1
      lsn := lsn
      feed := s.feed ++ (s.table.commit l ws).2 }
  | log (s : SubsetSystem d) {lsn : ℕ} (hlsn : s.lsn ≤ lsn) : Step s .other { s with lsn := lsn }
  /- The client is opened, or its feed was replaced: the old tail ends and the new one's offset is taken. -/
  | openFeed (s : SubsetSystem d) {o : ℕ} (ho : o ≤ s.feed.length) :
    Step s .other { s with tail := none, seeding := some (o,none) }
  | querySeed (s : SubsetSystem d) {o : ℕ} (h : s.seeding = some (o,none)) {rows : List d.TypedRow}
    (hrows : Keyset.IsPage d.cmp (fun r => s.table.selected (d.key r) = some r) d.offset d.limit rows) :
    Step s (.querySeed rows) { s with seeding := some (o,some (rows,s.lsn)) }
  | seed (s : SubsetSystem d) {o lsn : ℕ} {rows : List d.TypedRow}
    (h : s.seeding = some (o,some (rows,lsn))) :
    Step s .other { s with
      client := s.client.seedPage ⟨rows,some lsn⟩
      tail := some o
      seeding := none }
  | failSeed (s : SubsetSystem d) : Step s .other { s with seeding := none }
  | deliver (s : SubsetSystem d) {i : ℕ} {change : FeedChange d} (h : s.tail = some i)
    (hchange : s.feed[i]? = some change) :
    Step s .other { s with
      client := s.client.applyEnvelope (.of change.key change.value change.lsn)
      tail := some (i + 1) }
  | loadMore (s : SubsetSystem d) {pageSize : ℕ} {b : d.TypedRow} (hended : s.client.ended = false)
    (hsize : 0 < pageSize) (hb : s.client.boundary = some b) :
    Step s .other { s with
      client := { s.client with loadsInFlight := s.client.loadsInFlight + 1 }
      loads := s.loads ++ [⟨s.client.windowGeneration,pageSize,b,none⟩] }
  | query (s : SubsetSystem d) {pre post : List (SubsetLoad d)} {load : SubsetLoad d}
    (h : s.loads = pre ++ load::post) (hnone : load.page = none) {rows : List d.TypedRow}
    (hrows : Keyset.IsPage d.cmp (fun r => s.table.selected (d.key r) = some r ∧
      (d.cursorPredicate load.cursor).sqlEval r.row (fun _ => ∅) = .yes) 0 load.pageSize rows) :
    Step s .other { s with loads := pre ++ { load with page := some (rows,s.lsn) }::post }
  | arrive (s : SubsetSystem d) {pre post : List (SubsetLoad d)} {load : SubsetLoad d}
    (h : s.loads = pre ++ load::post) {rows : List d.TypedRow} {lsn : ℕ} (hpage : load.page = some (rows,lsn)) :
    Step s (.arrive load rows lsn) { s with
      client := s.client.loaded load.generation load.pageSize ⟨rows,some lsn⟩
      loads := pre ++ post }
  | fail (s : SubsetSystem d) {pre post : List (SubsetLoad d)} {load : SubsetLoad d}
    (h : s.loads = pre ++ load::post) :
    Step s .other { s with client := s.client.finishLoad, loads := pre ++ post }

/-- A change of the row at or after an LSN was delivered, and no change of it is still to come. -/
def Overtaken (s : SubsetSystem d) (i lsn : ℕ) (k : String) : Prop :=
  (∃ c ∈ s.feed.take i, c.key = k ∧ lsn ≤ c.lsn) ∧ ∀ c ∈ s.feed.drop i, c.key ≠ k

/-- A page has everything up to a row. -/
def Reaches (pageSize : ℕ) (rows : List d.TypedRow) (r : d.TypedRow) : Prop :=
  rows.length < pageSize ∨ ∃ l ∈ rows.getLast?, (d.cmp r l).isLE

/-- The condition on a step. The page of a seed is not empty because of its offset alone. A later page does not
end before the boundary; and if the feed overtook it for a row, then the page does not replace what the row
is by an older version, and does not reach the row where the window did not. -/
def Allowed (s : SubsetSystem d) : Act d → Prop
  | .querySeed rows => d.offset = 0 ∨ rows ≠ [] ∨ ∀ k, s.table.selected k = none
  | .arrive load rows lsn => ∀ i, s.tail = some i → load.generation = s.client.windowGeneration →
    (s.client.ended = true ∨ rows.length < load.pageSize ∨
      ∀ b ∈ s.client.boundary, ∀ l ∈ rows.getLast?, (d.cmp b l).isLE) ∧
    ∀ k, s.Overtaken i lsn k →
      (∀ r ∈ rows, d.key r = k → s.client.Accepts lsn k → s.table.selected k = some r) ∧
      ((∀ r ∈ rows, d.key r = k → ¬s.client.Accepts lsn k) →
        ∀ r, s.table.selected k = some r → Reaches load.pageSize rows r → s.client.inView r = true)
  | .other => True

def Steps : SubsetSystem d → SubsetSystem d → Prop := Relation.ReflTransGen fun s t => ∃ a, Step s a t

/-- A run whose steps all meet the condition. -/
def GuardedSteps : SubsetSystem d → SubsetSystem d → Prop :=
  Relation.ReflTransGen fun s t => ∃ a, s.Allowed a ∧ Step s a t

/-- Every page and every delta was delivered. -/
def Quiet (s : SubsetSystem d) : Prop :=
  s.tail = some s.feed.length ∧ s.seeding = none ∧ s.loads = []

end SubsetSystem

/-- The last change of a row. -/
def lastChange (changes : List (FeedChange d)) (k : String) : Option (FeedChange d) :=
  (changes.filter fun c => decide (c.key = k)).getLast?

lemma lastChange_append (xs ys : List (FeedChange d)) (k : String) :
    lastChange (xs ++ ys) k = (lastChange ys k).or (lastChange xs k) := by
  rw [lastChange,List.filter_append,List.getLast?_append]
  rfl

lemma lastChange_eq_none {changes : List (FeedChange d)} {k : String} :
    lastChange changes k = none ↔ ∀ c ∈ changes, c.key ≠ k := by
  simp [lastChange]

lemma lastChange_cons_of_last {c : FeedChange d} {changes : List (FeedChange d)}
    (h : ∀ e ∈ changes, e.key ≠ c.key) : lastChange (c::changes) c.key = some c := by
  have hnone : changes.filter (fun e => decide (e.key = c.key)) = [] := by
    simpa using h
  simp [lastChange,hnone]

namespace SubsetTable

lemma selected_write (t : SubsetTable d) (w : RowWrite d) (k : String) :
    (t.write w).selected k = if k = w.key then w.value.filter (d.selects ·.row) else t.selected k := by
  unfold selected write
  dsimp only
  by_cases hk : k = w.key
  · subst hk
    rw [Function.update_self,if_pos rfl]
  · rw [Function.update_of_ne hk,if_neg hk]

lemma selected_keyed {t : SubsetTable d} {k : String} {r : d.TypedRow} (h : t.selected k = some r) :
    d.key r = k := t.keyed k r (Option.filter_eq_some_iff.mp h).1

lemma commit_changes (l : ℕ) (ws : List (RowWrite d)) (t : SubsetTable d) :
    ∀ c ∈ (t.commit l ws).2, c.lsn = l ∧ ∀ r ∈ c.value, d.key r = c.key := by
  induction ws generalizing t with
  | nil => simp [commit]
  | cons w ws ih =>
    intro c hc
    rw [commit] at hc
    dsimp only at hc
    split_ifs at hc
    · exact ih _ c hc
    · rcases List.mem_cons.mp hc with rfl | hc
      · exact ⟨rfl,fun r hr => w.keyed r (Option.filter_eq_some_iff.mp hr).1⟩
      · exact ih _ c hc

/-- The feed's changes say what a commit made of the rows that match. -/
theorem commit_selected (l : ℕ) (ws : List (RowWrite d)) (t : SubsetTable d) (k : String) :
    (t.commit l ws).1.selected k = ((lastChange (t.commit l ws).2 k).map (·.value)).getD (t.selected k) := by
  induction ws generalizing t with
  | nil => rfl
  | cons w ws ih =>
    rw [commit]
    dsimp only
    rw [ih]
    split_ifs with hsilent
    · -- the row did not match and does not match now
      rw [Bool.and_eq_true,Option.isNone_iff_eq_none,Option.isNone_iff_eq_none] at hsilent
      have hsame : (t.write w).selected k = t.selected k := by
        rw [selected_write]
        split_ifs with hk
        · rw [hsilent.1,hk,hsilent.2]
        · rfl
      rw [hsame]
    · rw [← List.singleton_append (l := ((t.write w).commit l ws).2),lastChange_append]
      cases hlast : lastChange ((t.write w).commit l ws).2 k with
      | some c => rfl
      | none =>
        rw [Option.none_or,selected_write]
        by_cases hk : k = w.key
        · subst hk
          rw [if_pos rfl,lastChange_cons_of_last (by simp)]
          rfl
        · rw [if_neg hk,lastChange_eq_none.mpr (by simpa using Ne.symm hk)]

end SubsetTable

namespace SubsetSystem

/-- The table is as another one was at some LSN, in the rows that did not change since. -/
def Since (s : SubsetSystem d) (q : ℕ) (t : SubsetTable d) : Prop :=
  ∀ k, (∀ c ∈ s.feed, c.key = k → c.lsn < q) → s.table.selected k = t.selected k

/-- The page that a seed has read, and the changes before its offset. -/
structure SeedInv (s : SubsetSystem d) (o : ℕ) (rows : List d.TypedRow) (q : ℕ) : Prop where
  below : q ≤ s.lsn
  before : ∀ c ∈ s.feed.take o, c.lsn < q
  page : ∃ t : SubsetTable d,
    Keyset.IsPage d.cmp (fun r => t.selected (d.key r) = some r) d.offset d.limit rows ∧ s.Since q t ∧
      (d.offset = 0 ∨ rows ≠ [] ∨ ∀ k, t.selected k = none)

/-- A later page of the window, in flight. -/
structure LoadInv (s : SubsetSystem d) (load : SubsetLoad d) : Prop where
  lower : ∀ f ∈ s.client.lower, (d.cmp f load.cursor).isLE
  boundary : s.client.ended = false → ∃ b, s.client.boundary = some b ∧ (d.cmp load.cursor b).isLE
  page : ∀ rows q, load.page = some (rows,q) → s.client.view.snapshotLsn ≤ q ∧ q ≤ s.lsn ∧
    ∃ t : SubsetTable d, Keyset.IsPage d.cmp (fun r => t.selected (d.key r) = some r ∧
      d.cmp load.cursor r = .lt) 0 load.pageSize rows ∧ s.Since q t

/-- What the client knows of one row: with no change to come that it would take, it has the row as the table
and the window have it. -/
structure RowInv (s : SubsetSystem d) (i : ℕ) (k : String) : Prop where
  floor : s.client.view.snapshotLsn ≤ s.client.view.floor k ∧ s.client.view.floor k ≤ s.lsn
  inside : ∀ r, s.client.collection k = some r → s.client.inView r = true
  tombstone : ∀ w ∈ s.client.view.applied.get? k,
    s.client.collection k ≠ none ∨ ∃ c ∈ s.feed.take i, c.key = k ∧ w ≤ c.lsn
  right : (∀ c ∈ s.feed.drop i, c.key = k → c.lsn < s.client.view.floor k) →
    s.client.collection k = (s.table.selected k).filter s.client.inView

structure Synced (s : SubsetSystem d) (i : ℕ) : Prop where
  next : i ≤ s.feed.length
  rows : ∀ k, s.RowInv i k
  low : s.client.ended = false → ∀ f ∈ s.client.lower, ∀ b ∈ s.client.boundary, (d.cmp f b).isLE
  loads : ∀ load ∈ s.loads, load.generation = s.client.windowGeneration → s.LoadInv load

structure Inv (s : SubsetSystem d) : Prop where
  below : ∀ c ∈ s.feed, c.lsn < s.lsn
  sorted : s.feed.Pairwise fun c e => c.lsn ≤ e.lsn
  latest : ∀ k c, lastChange s.feed k = some c → s.table.selected k = c.value
  keyed : ∀ c ∈ s.feed, ∀ r ∈ c.value, d.key r = c.key
  consistent : s.client.Consistent
  generation : ∀ load ∈ s.loads, load.generation ≤ s.client.windowGeneration
  seeding : ∀ o page, s.seeding = some (o,page) → o ≤ s.feed.length ∧
    ∀ rows q, page = some (rows,q) → s.SeedInv o rows q
  synced : ∀ i, s.tail = some i → s.Synced i

lemma inv_new (table : SubsetTable d) (lsn : ℕ) : (new table lsn).Inv := by
  refine ⟨by simp [new],by simp [new],by simp [new,lastChange],by simp [new],?_,by simp [new],by simp [new],
    by simp [new]⟩
  intro k
  simp [new,SubsetClient.new]

section database
variable {s : SubsetSystem d} {t : SubsetTable d} {lsn : ℕ} {changes : List (FeedChange d)}

/-- The database after a commit, or after something else in its log. -/
structure Moves (s : SubsetSystem d) (t : SubsetTable d) (lsn : ℕ) (changes : List (FeedChange d)) : Prop where
  forward : s.lsn ≤ lsn
  fits : ∀ c ∈ changes, s.lsn ≤ c.lsn ∧ c.lsn < lsn ∧ ∀ r ∈ c.value, d.key r = c.key
  sorted : changes.Pairwise fun c e => c.lsn ≤ e.lsn
  selected : ∀ k, t.selected k = ((lastChange changes k).map (·.value)).getD (s.table.selected k)

/-- The system with its database moved. -/
def moved (s : SubsetSystem d) (t : SubsetTable d) (lsn : ℕ) (changes : List (FeedChange d)) : SubsetSystem d :=
  { s with table := t, lsn := lsn, feed := s.feed ++ changes }

lemma Moves.unchanged (h : s.Moves t lsn changes) {k : String} (hk : ∀ c ∈ changes, c.key ≠ k) :
    t.selected k = s.table.selected k := by
  rw [h.selected,lastChange_eq_none.mpr hk]
  rfl

/-- A row with changes that are all before an LSN of the past has none among the new ones. -/
lemma Moves.silent (h : s.Moves t lsn changes) {q : ℕ} (hq : q ≤ s.lsn) {k : String}
    (hk : ∀ c ∈ changes, c.key = k → c.lsn < q) : ∀ c ∈ changes, c.key ≠ k := by
  intro c hc hkey
  have hlt := hk c hc hkey
  have hge := (h.fits c hc).1
  omega

lemma Moves.since (h : s.Moves t lsn changes) {q : ℕ} (hq : q ≤ s.lsn) {t' : SubsetTable d}
    (hs : s.Since q t') : (s.moved t lsn changes).Since q t' := by
  intro k hk
  have hnew := h.silent hq fun c hc => hk c (List.mem_append_right _ hc)
  exact (h.unchanged hnew).trans (hs k fun c hc => hk c (List.mem_append_left _ hc))

lemma Moves.row (h : s.Moves t lsn changes) {i : ℕ} (hi : i ≤ s.feed.length) {k : String}
    (hr : s.RowInv i k) : (s.moved t lsn changes).RowInv i k := by
  refine ⟨⟨hr.floor.1,hr.floor.2.trans h.forward⟩,hr.inside,fun w hw => ?_,fun hk => ?_⟩
  · refine (hr.tombstone w hw).imp_right fun ⟨c,hc,hkey⟩ => ⟨c,?_,hkey⟩
    exact (List.take_append_of_le_length hi).symm ▸ hc
  · simp only [moved,List.drop_append_of_le_length hi] at hk
    have hnew := h.silent hr.floor.2 fun c hc => hk c (List.mem_append_right _ hc)
    refine (hr.right fun c hc => hk c (List.mem_append_left _ hc)).trans ?_
    exact congrArg (Option.filter _) (h.unchanged hnew).symm

lemma Inv.moved (hs : s.Inv) (h : s.Moves t lsn changes) : (s.moved t lsn changes).Inv := by
  refine ⟨fun c hc => ?_,?_,fun k c hc => ?_,fun c hc => ?_,hs.consistent,hs.generation,
    fun o page ho => ?_,fun i hi => ?_⟩
  · rcases List.mem_append.mp hc with hc | hc
    · exact (hs.below c hc).trans_le h.forward
    · exact (h.fits c hc).2.1
  · refine List.pairwise_append.mpr ⟨hs.sorted,h.sorted,fun c hc e he => ?_⟩
    exact (hs.below c hc).le.trans (h.fits e he).1
  · refine (h.selected k).trans ?_
    simp only [SubsetSystem.moved,lastChange_append] at hc
    cases hlast : lastChange changes k with
    | some e =>
      rw [hlast,Option.some_or] at hc
      exact congrArg (·.value) (Option.some.inj hc)
    | none =>
      rw [hlast,Option.none_or] at hc
      exact hs.latest k c hc
  · rcases List.mem_append.mp hc with hc | hc
    · exact hs.keyed c hc
    · exact (h.fits c hc).2.2
  · obtain ⟨hlen,hseed⟩ := hs.seeding o page ho
    refine ⟨hlen.trans (by simp [SubsetSystem.moved]),fun rows q hp => ?_⟩
    obtain ⟨hbelow,hbefore,t',hpage,hsince,hempty⟩ := hseed rows q hp
    refine ⟨hbelow.trans h.forward,fun c hc => hbefore c ?_,t',hpage,h.since hbelow hsince,hempty⟩
    exact List.take_append_of_le_length hlen ▸ hc
  · have hsync := hs.synced i hi
    refine ⟨hsync.next.trans (by simp [SubsetSystem.moved]),fun k => h.row hsync.next (hsync.rows k),hsync.low,
      fun load hl hgen => ?_⟩
    obtain ⟨hlower,hboundary,hpage⟩ := hsync.loads load hl hgen
    refine ⟨hlower,hboundary,fun rows q hp => ?_⟩
    obtain ⟨hfloor,hbelow,t',hrows,hsince⟩ := hpage rows q hp
    exact ⟨hfloor,hbelow.trans h.forward,t',hrows,h.since hbelow hsince⟩

lemma moves_commit (s : SubsetSystem d) (ws : List (RowWrite d)) {l : ℕ} (hl : s.lsn ≤ l) (hlsn : l < lsn) :
    s.Moves (s.table.commit l ws).1 lsn (s.table.commit l ws).2 := by
  have hchanges := SubsetTable.commit_changes l ws s.table
  refine ⟨hl.trans hlsn.le,fun c hc => ?_,?_,SubsetTable.commit_selected l ws s.table⟩
  · obtain ⟨heq,hkey⟩ := hchanges c hc
    exact ⟨heq ▸ hl,heq ▸ hlsn,hkey⟩
  · exact List.Pairwise.imp_of_mem (fun hc he _ => ((hchanges _ hc).1.trans (hchanges _ he).1.symm).le)
      (List.pairwise_of_forall (fun _ _ => trivial))

end database

lemma isLE_iff_not_lt (a b : d.TypedRow) : (d.cmp a b).isLE = true ↔ d.cmp b a ≠ .lt := by
  rw [Ordering.isLE_iff_ne_gt,Ne,Std.OrientedCmp.gt_iff_lt]

lemma inView_iff (c : SubsetClient d) (r : d.TypedRow) : c.inView r = true ↔
    (∀ f ∈ c.lower, (d.cmp f r).isLE = true) ∧ (c.ended = true ∨ ∀ b ∈ c.boundary, (d.cmp r b).isLE = true) := by
  have hgt : ∀ a b, d.cmp a b = .gt ↔ d.cmp b a = .lt := fun _ _ => Std.OrientedCmp.gt_iff_lt
  unfold SubsetClient.inView
  cases hl : c.lower <;> cases hb : c.boundary <;> by_cases he : c.ended = true <;>
    simp [he,hgt,Ordering.isLE_iff_ne_gt]

lemma inView_frame {c c' : SubsetClient d} (h : c'.frame = c.frame) : c'.inView = c.inView := by
  simp only [SubsetClient.frame,Prod.mk.injEq] at h
  obtain ⟨hb,hl,he,-,-⟩ := h
  funext r
  rw [SubsetClient.inView,SubsetClient.inView,hb,hl,he]

/-- The rows of a page have keys of their own. -/
lemma page_keys {t : SubsetTable d} {S : d.TypedRow → Prop} {offset limit : ℕ} {rows : List d.TypedRow}
    (h : Keyset.IsPage d.cmp S offset limit rows) (hS : ∀ r, S r → t.selected (d.key r) = some r) :
    (rows.map d.key).Nodup := by
  refine List.pairwise_map.mpr (h.sorted.imp_of_mem fun {a b} ha hb hlt hkey => ?_)
  have heq := (hS a (h.mem ha)).symm.trans ((congrArg t.selected hkey).trans (hS b (h.mem hb)))
  rw [Option.some.inj heq] at hlt
  have hself : d.cmp b b = .eq := Std.ReflCmp.compare_self
  rw [hself] at hlt
  cases hlt

section client
variable {s : SubsetSystem d} {i : ℕ} {k : String}

lemma LoadInv.of_frame {load : SubsetLoad d} (h : s.LoadInv load) {c : SubsetClient d}
    (hf : c.frame = s.client.frame) : LoadInv { s with client := c } load := by
  simp only [SubsetClient.frame,Prod.mk.injEq] at hf
  obtain ⟨hb,hl,he,-,hs⟩ := hf
  refine ⟨fun f hf => h.lower f (hl ▸ hf),fun hended => ?_,fun rows q hp => ?_⟩
  · obtain ⟨b,hbound,hle⟩ := h.boundary (he ▸ hended)
    exact ⟨b,hb.trans hbound,hle⟩
  · obtain ⟨hsnap,hrest⟩ := h.page rows q hp
    exact ⟨hs.symm ▸ hsnap,hrest⟩

/-- The client forgets at most a watermark of the row. -/
lemma RowInv.finishLoad (h : s.RowInv i k) : RowInv { s with client := s.client.finishLoad } i k := by
  obtain ⟨hframe,hentry⟩ := s.client.finishLoad_entry k
  have hview := inView_frame hframe
  have hsnap : s.client.finishLoad.view.snapshotLsn = s.client.view.snapshotLsn := congrArg (·.2.2.2.2) hframe
  have hcoll : s.client.finishLoad.collection k = s.client.collection k := by
    rcases hentry with hsame | ⟨-,hgone⟩
    · exact congrArg (·.1) hsame
    · exact congrArg (·.1) hgone
  have happlied : s.client.finishLoad.view.applied.get? k = s.client.view.applied.get? k ∨
      s.client.finishLoad.view.applied.get? k = none := by
    rcases hentry with hsame | ⟨-,hgone⟩
    · exact .inl (congrArg (·.2.1) hsame)
    · exact .inr (congrArg (·.2.1) hgone)
  have hfloor : s.client.finishLoad.view.snapshotLsn ≤ s.client.finishLoad.view.floor k ∧
      s.client.finishLoad.view.floor k ≤ s.client.view.floor k := by
    unfold SubsetView.floor
    rcases happlied with hsame | hnone
    · rw [hsame,hsnap]
      exact ⟨h.floor.1,le_rfl⟩
    · rw [hnone,hsnap]
      exact ⟨le_rfl,h.floor.1⟩
  refine ⟨⟨hfloor.1,hfloor.2.trans h.floor.2⟩,fun r hr => ?_,fun w hw => ?_,fun hk => ?_⟩
  · dsimp only at hr ⊢
    rw [hview]
    exact h.inside r (hcoll ▸ hr)
  · dsimp only at hw ⊢
    rw [hcoll]
    rcases happlied with hsame | hnone
    · exact h.tombstone w (hsame ▸ hw)
    · rw [hnone] at hw
      cases hw
  · dsimp only at hk ⊢
    rw [hcoll,hview]
    exact h.right fun c hc hkey => (hk c hc hkey).trans_le hfloor.2

/-- A row that a step of the client leaves alone. -/
lemma RowInv.of_entry (h : s.RowInv i k) {c : SubsetClient d} (hf : c.frame = s.client.frame)
    (he : c.entry k = s.client.entry k) : RowInv { s with client := c } i k := by
  have hview := inView_frame hf
  have hsnap : c.view.snapshotLsn = s.client.view.snapshotLsn := congrArg (·.2.2.2.2) hf
  have hcoll : c.collection k = s.client.collection k := congrArg (·.1) he
  have happlied : c.view.applied.get? k = s.client.view.applied.get? k := congrArg (·.2.1) he
  have hfloor : c.view.floor k = s.client.view.floor k := by
    rw [SubsetView.floor,SubsetView.floor,happlied,hsnap]
  obtain ⟨hfl,hin,htomb,hright⟩ := h
  refine ⟨?_,fun r hr => ?_,fun w hw => ?_,fun hk => ?_⟩
  · dsimp only
    rw [hfloor,hsnap]
    exact hfl
  · dsimp only at hr ⊢
    rw [hview]
    exact hin r (hcoll ▸ hr)
  · dsimp only at hw ⊢
    rw [hcoll]
    exact htomb w (happlied ▸ hw)
  · dsimp only at hk ⊢
    rw [hcoll,hview]
    exact hright (hfloor ▸ hk)

/-- The change that no later one of its row follows. -/
lemma lastChange_of_drop {change : FeedChange d} (hfeed : s.feed[i]? = some change) (hk : change.key = k)
    (hlast : ∀ c ∈ s.feed.drop (i + 1), c.key ≠ k) : lastChange s.feed k = some change := by
  obtain ⟨hi,hget⟩ := List.getElem?_eq_some_iff.mp hfeed
  have hsplit : s.feed = s.feed.take i ++ change::s.feed.drop (i + 1) := by
    rw [← hget,← List.drop_eq_getElem_cons hi,List.take_append_drop]
  subst hk
  rw [hsplit,lastChange_append,lastChange_cons_of_last hlast]
  rfl

/-- A delta of the row is delivered. -/
lemma Inv.deliver_row (h : s.Inv) {change : FeedChange d} (hfeed : s.feed[i]? = some change)
    (hr : s.RowInv i k) :
    RowInv { s with client := s.client.applyEnvelope (.of change.key change.value change.lsn) } (i + 1) k := by
  obtain ⟨hi,hget⟩ := List.getElem?_eq_some_iff.mp hfeed
  have hdrop : s.feed.drop i = change::s.feed.drop (i + 1) := hget ▸ List.drop_eq_getElem_cons hi
  have htake : s.feed.take (i + 1) = s.feed.take i ++ [change] := by
    rw [List.take_add_one,hfeed]
    rfl
  have hmem : change ∈ s.feed := hget ▸ List.getElem_mem hi
  have hlater : ∀ e ∈ s.feed.drop (i + 1), change.lsn ≤ e.lsn := by
    have hsorted := h.sorted.sublist (List.drop_sublist i s.feed)
    rw [hdrop] at hsorted
    exact (List.pairwise_cons.mp hsorted).1
  have hframe := s.client.applyEnvelope_frame change.key change.value change.lsn
  -- a row that the delta leaves alone only has one change less to come
  have hadvance : (change.key = k → change.lsn < s.client.view.floor k) → s.RowInv (i + 1) k := by
    intro hold
    refine ⟨hr.floor,hr.inside,fun w hw => ?_,fun hk => hr.right ?_⟩
    · refine (hr.tombstone w hw).imp_right ?_
      rintro ⟨c,hc,hrest⟩
      exact ⟨c,htake ▸ List.mem_append_left _ hc,hrest⟩
    · rw [hdrop]
      exact List.forall_mem_cons.mpr ⟨hold,hk⟩
  by_cases hkey : change.key = k
  · by_cases hfresh : s.client.view.floor change.key ≤ change.lsn
    · obtain ⟨hself,-⟩ := SubsetClient.applyEnvelope_fresh h.consistent hfresh (h.keyed change hmem)
      have hright : (∀ c ∈ s.feed.drop (i + 1), c.key ≠ k) → s.table.selected k = change.value :=
        fun hlast => h.latest k change (lastChange_of_drop hfeed hkey hlast)
      have hview := inView_frame hframe
      have hsnap : (s.client.applyEnvelope (.of change.key change.value change.lsn)).view.snapshotLsn =
          s.client.view.snapshotLsn := congrArg (·.2.2.2.2) hframe
      subst hkey
      rcases hself with hnew | ⟨hsame,hnone,hout⟩
      · have hcoll := congrArg (·.1) hnew
        have happlied := congrArg (·.2.1) hnew
        simp only [SubsetClient.entry] at hcoll happlied
        refine ⟨?_,fun r hr' => ?_,fun w hw => ?_,fun hk => ?_⟩
        · simp only [SubsetView.floor,happlied,hsnap,Option.getD_some]
          exact ⟨hr.floor.1.trans hfresh,(h.below change hmem).le⟩
        · simp only [hcoll,hview] at hr' ⊢
          exact (Option.filter_eq_some_iff.mp hr').2
        · simp only [happlied] at hw
          obtain rfl := Option.some.inj hw
          exact .inr ⟨change,htake ▸ List.mem_append_right _ (.head _),rfl,le_rfl⟩
        · simp only [SubsetView.floor,happlied,Option.getD_some] at hk
          have hlast : ∀ c ∈ s.feed.drop (i + 1), c.key ≠ change.key := fun c hc hkey =>
            absurd (hlater c hc) (Nat.not_le.mpr (hk c hc hkey))
          simp only [hcoll,hview]
          rw [hright hlast]
      · -- the row is outside the window and not loaded: nothing is kept of the delta
        refine RowInv.of_entry (s := s) ⟨hr.floor,hr.inside,fun w hw => ?_,fun hk => ?_⟩ hframe hsame
        · refine (hr.tombstone w hw).imp_right ?_
          rintro ⟨c,hc,hrest⟩
          exact ⟨c,htake ▸ List.mem_append_left _ hc,hrest⟩
        · have hlast : ∀ c ∈ s.feed.drop (i + 1), c.key ≠ change.key := fun c hc hkey =>
            absurd (hfresh.trans (hlater c hc)) (Nat.not_le.mpr (hk c hc hkey))
          rw [hright hlast,hnone,hout]
    · rw [SubsetClient.applyEnvelope_stale (Nat.not_le.mp hfresh)]
      exact hadvance fun _ => hkey ▸ Nat.not_le.mp hfresh
  · refine RowInv.of_entry (hadvance fun hk => absurd hk hkey) hframe ?_
    by_cases hfresh : s.client.view.floor change.key ≤ change.lsn
    · exact (SubsetClient.applyEnvelope_fresh h.consistent hfresh (h.keyed change hmem)).2 k (Ne.symm hkey)
    · rw [SubsetClient.applyEnvelope_stale (Nat.not_le.mp hfresh)]

/-- What the condition asks of a page of the current window. -/
structure PageAllowed (s : SubsetSystem d) (i : ℕ) (load : SubsetLoad d) (rows : List d.TypedRow) (q : ℕ) :
    Prop where
  forward : s.client.ended = true ∨ rows.length < load.pageSize ∨
    ∀ b ∈ s.client.boundary, ∀ l ∈ rows.getLast?, (d.cmp b l).isLE
  accepted : ∀ k, s.Overtaken i q k → ∀ r ∈ rows, d.key r = k → s.client.Accepts q k →
    s.table.selected k = some r
  kept : ∀ k, s.Overtaken i q k → (∀ r ∈ rows, d.key r = k → ¬s.client.Accepts q k) →
    ∀ r, s.table.selected k = some r → Reaches load.pageSize rows r → s.client.inView r = true

section page
variable {load : SubsetLoad d} {rows : List d.TypedRow} {q : ℕ}

/-- The end of the window, after a page: where it was, or further. -/
lemma PageAllowed.boundary (ha : s.PageAllowed i load rows q) (hload : s.LoadInv load)
    (hended : (s.client.mergePage load.pageSize ⟨rows,some q⟩).ended = false) :
    s.client.ended = false ∧ ∃ b b', s.client.boundary = some b ∧
      (s.client.mergePage load.pageSize ⟨rows,some q⟩).boundary = some b' ∧ (d.cmp b b').isLE ∧
      (rows = [] ∨ b' ∈ rows.getLast?) := by
  simp only [SubsetClient.mergePage] at hended ⊢
  split_ifs at hended with hshort
  obtain ⟨b,hb,-⟩ := hload.boundary hended
  refine ⟨hended,b,?_⟩
  cases hl : rows.getLast? with
  | none =>
    have hself : d.cmp b b = .eq := Std.ReflCmp.compare_self
    have hnil := List.getLast?_eq_none_iff.mp hl
    refine ⟨b,hb,?_,by rw [hself]; rfl,.inl hnil⟩
    rw [hnil]
    exact hb
  | some l =>
    have hne : rows ≠ [] := by
      rintro rfl
      cases hl
    refine ⟨l,hb,?_,?_,.inr rfl⟩
    · rw [if_neg (by simpa using hne)]
    · rcases ha.forward with hended' | hshort' | hle
      · rw [hended] at hended'
        cases hended'
      · exact absurd hshort' hshort
      · exact hle b hb l hl

lemma mergePage_lower : (s.client.mergePage load.pageSize ⟨rows,some q⟩).lower = s.client.lower :=
  congrArg (·.2.1) (SubsetClient.foldl_mergeRow_frame q rows s.client)

/-- The window only grows with a page. -/
lemma PageAllowed.grows (ha : s.PageAllowed i load rows q) (hload : s.LoadInv load) {r : d.TypedRow}
    (hr : s.client.inView r = true) :
    (s.client.mergePage load.pageSize ⟨rows,some q⟩).inView r = true := by
  obtain ⟨hlow,hhigh⟩ := (inView_iff _ _).mp hr
  refine (inView_iff _ _).mpr ⟨fun f hf => hlow f (mergePage_lower ▸ hf),?_⟩
  by_cases hended : (s.client.mergePage load.pageSize ⟨rows,some q⟩).ended = true
  · exact .inl hended
  · obtain ⟨hold,b,b',hb,hb',hle,-⟩ := ha.boundary hload (Bool.eq_false_iff.mpr hended)
    refine .inr fun x hx => ?_
    rw [hb'] at hx
    obtain rfl := Option.some.inj hx
    rcases hhigh with hend | hhigh
    · rw [hold] at hend
      cases hend
    · exact Std.TransCmp.isLE_trans (hhigh b hb) hle

/-- It grows by what the page reaches. -/
lemma reaches_of_grown (hload : s.LoadInv load) {r : d.TypedRow}
    (hr : (s.client.mergePage load.pageSize ⟨rows,some q⟩).inView r = true) (hout : ¬s.client.inView r = true) :
    Reaches load.pageSize rows r ∧ d.cmp load.cursor r = .lt := by
  obtain ⟨hlow,hhigh⟩ := (inView_iff _ _).mp hr
  rw [inView_iff,not_and,not_or] at hout
  obtain ⟨hended,hout⟩ := hout fun f hf => hlow f (mergePage_lower.symm ▸ hf)
  obtain ⟨b,hb,hcursor⟩ := hload.boundary (Bool.eq_false_iff.mpr hended)
  have hbr : ¬(d.cmp r b).isLE = true := fun hle => hout fun x hx => by
    rw [hb] at hx
    exact Option.some.inj hx ▸ hle
  have hlt : d.cmp b r = .lt := by
    rw [isLE_iff_not_lt,not_not] at hbr
    exact hbr
  refine ⟨?_,Std.TransCmp.lt_of_isLE_of_lt hcursor hlt⟩
  by_cases hshort : rows.length < load.pageSize
  · exact .inl hshort
  simp only [SubsetClient.mergePage,if_neg hshort,hended,Bool.false_eq_true,false_or] at hhigh
  cases hl : rows.getLast? with
  | none =>
    rw [List.getLast?_eq_none_iff.mp hl] at hhigh
    exact absurd (hhigh b hb) hbr
  | some l =>
    have hne : rows ≠ [] := by
      rintro rfl
      cases hl
    rw [if_neg (by simpa using hne)] at hhigh
    exact .inr ⟨l,hl,hhigh l hl⟩

/-- The feed is delivered in the order of its LSNs. -/
lemma Inv.take_le_drop (h : s.Inv) {c e : FeedChange d} (hc : c ∈ s.feed.take i) (he : e ∈ s.feed.drop i) :
    c.lsn ≤ e.lsn := by
  have hsorted := h.sorted
  rw [← List.take_append_drop i s.feed] at hsorted
  exact (List.pairwise_append.mp hsorted).2.2 c hc e he

/-- A row of the page that replaces what was known. -/
lemma Inv.merge_accepted (h : s.Inv) (hload : s.LoadInv load) (hpage : load.page = some (rows,q))
    (ha : s.PageAllowed i load rows q) {r : d.TypedRow} (hr : r ∈ rows) (hacc : s.client.Accepts q (d.key r)) :
    RowInv { s with client := s.client.mergePage load.pageSize ⟨rows,some q⟩ } i (d.key r) := by
  obtain ⟨hsnap,hq,t,hrows,hsince⟩ := hload.page rows q hpage
  have hentry := SubsetClient.foldl_mergeRow_self (page_keys hrows fun r hr => hr.1) hr hacc
  have hcoll : (s.client.mergePage load.pageSize ⟨rows,some q⟩).collection (d.key r) = some r :=
    congrArg (·.1) hentry
  have happlied : (s.client.mergePage load.pageSize ⟨rows,some q⟩).view.applied.get? (d.key r) = some q :=
    congrArg (·.2.1) hentry
  have hsnap' : (s.client.mergePage load.pageSize ⟨rows,some q⟩).view.snapshotLsn =
      s.client.view.snapshotLsn :=
    congrArg (·.2.2.2.2) (SubsetClient.foldl_mergeRow_frame q rows s.client)
  have hin : (s.client.mergePage load.pageSize ⟨rows,some q⟩).inView r = true := by
    refine (inView_iff _ _).mpr ⟨fun f hf => ?_,?_⟩
    · have hle := hload.lower f (mergePage_lower ▸ hf)
      have hlt := Std.TransCmp.lt_of_isLE_of_lt hle (hrows.mem hr).2
      rw [hlt]
      rfl
    · by_cases hended : (s.client.mergePage load.pageSize ⟨rows,some q⟩).ended = true
      · exact .inl hended
      · obtain ⟨-,b,b',-,hb',-,hlast⟩ := ha.boundary hload (Bool.eq_false_iff.mpr hended)
        refine .inr fun x hx => ?_
        rw [hb'] at hx
        obtain rfl := Option.some.inj hx
        rcases hlast with rfl | hl
        · cases hr
        · exact Keyset.le_getLast hrows.sorted hr hl
  refine ⟨?_,fun r' hr' => ?_,fun w _ => .inl ?_,fun hk => ?_⟩
  · simp only [SubsetView.floor,happlied,hsnap',Option.getD_some]
    exact ⟨hsnap,hq⟩
  · simp only [hcoll] at hr'
    exact Option.some.inj hr' ▸ hin
  · simp [hcoll]
  · simp only [SubsetView.floor,happlied,Option.getD_some] at hk
    have hcurrent : s.table.selected (d.key r) = some r := by
      by_cases hdel : ∃ c ∈ s.feed.take i, c.key = d.key r ∧ q ≤ c.lsn
      · obtain ⟨c,hc,hkey,hle⟩ := hdel
        refine ha.accepted (d.key r) ⟨⟨c,hc,hkey,hle⟩,fun e he hekey => ?_⟩ r hr rfl hacc
        have hlater := h.take_le_drop hc he
        have hlt := hk e he hekey
        omega
      · rw [hsince (d.key r) fun c hc hkey => ?_]
        · exact (hrows.mem hr).1
        · rw [← List.take_append_drop i s.feed] at hc
          rcases List.mem_append.mp hc with hc | hc
          · by_contra hle
            exact hdel ⟨c,hc,hkey,Nat.not_lt.mp hle⟩
          · exact hk c hc hkey
    simp only [hcoll]
    rw [hcurrent]
    exact (Option.filter_eq_some_iff.mpr ⟨rfl,hin⟩).symm

/-- Of a row that is not loaded, the changes to come that are not fresh are before the seed. -/
lemma Inv.stale_before_seed (h : s.Inv) (hr : s.RowInv i k) (hnone : s.client.collection k = none)
    (hk : ∀ c ∈ s.feed.drop i, c.key = k → c.lsn < s.client.view.floor k) {c : FeedChange d}
    (hc : c ∈ s.feed.drop i) (hkey : c.key = k) : c.lsn < s.client.view.snapshotLsn := by
  have hlt := hk c hc hkey
  unfold SubsetView.floor at hlt
  cases happlied : s.client.view.applied.get? k with
  | none =>
    rw [happlied] at hlt
    exact hlt
  | some w =>
    -- the watermark is a tombstone, of a change that was delivered
    obtain ⟨e,he,-,hle⟩ := (hr.tombstone w happlied).resolve_left (not_not.mpr hnone)
    have hlater := h.take_le_drop he hc
    rw [happlied,Option.getD_some] at hlt
    omega

/-- No row that is in the table stands between the old window and the new one, unless it is loaded. -/
lemma Inv.not_missed (h : s.Inv) (hr : s.RowInv i k) (hload : s.LoadInv load)
    (hpage : load.page = some (rows,q)) (ha : s.PageAllowed i load rows q)
    (hnot : ∀ r ∈ rows, d.key r = k → ¬s.client.Accepts q k)
    (hk : ∀ c ∈ s.feed.drop i, c.key = k → c.lsn < s.client.view.floor k)
    (hnone : s.client.collection k = none) {r : d.TypedRow} (hsel : s.table.selected k = some r)
    (hreach : Reaches load.pageSize rows r) (hcursor : d.cmp load.cursor r = .lt)
    (hout : ¬s.client.inView r = true) : False := by
  obtain ⟨hsnap,-,t,hrows,hsince⟩ := hload.page rows q hpage
  by_cases hdel : ∃ c ∈ s.feed.take i, c.key = k ∧ q ≤ c.lsn
  · refine hout (ha.kept k ⟨hdel,fun e he hekey => ?_⟩ hnot r hsel hreach)
    obtain ⟨c,hc,-,hle⟩ := hdel
    have hlater := h.take_le_drop hc he
    have hbefore := h.stale_before_seed hr hnone hk he hekey
    omega
  · have hold : t.selected k = some r := by
      rw [← hsince k fun c hc hkey => ?_]
      · exact hsel
      · rw [← List.take_append_drop i s.feed] at hc
        rcases List.mem_append.mp hc with hc | hc
        · by_contra hle
          exact hdel ⟨c,hc,hkey,Nat.not_lt.mp hle⟩
        · exact (h.stale_before_seed hr hnone hk hc hkey).trans_le hsnap
    have hkey := SubsetTable.selected_keyed hold
    have hmem := hrows.mem_of_between ⟨hkey.symm ▸ hold,hcursor⟩ (.inl rfl) hreach
    refine hnot r hmem hkey fun w hw => ?_
    obtain ⟨c,hc,hck,hle⟩ := (hr.tombstone w hw).resolve_left (not_not.mpr hnone)
    by_contra hlt
    exact hdel ⟨c,hc,hck,by omega⟩

/-- A row that the page says nothing new of. -/
lemma Inv.merge_kept (h : s.Inv) (hr : s.RowInv i k) (hload : s.LoadInv load)
    (hpage : load.page = some (rows,q)) (ha : s.PageAllowed i load rows q)
    (hnot : ∀ r ∈ rows, d.key r = k → ¬s.client.Accepts q k) :
    RowInv { s with client := s.client.mergePage load.pageSize ⟨rows,some q⟩ } i k := by
  obtain ⟨hsnap,hq,t,hrows,hsince⟩ := hload.page rows q hpage
  have hentry := SubsetClient.foldl_mergeRow_other hnot
  have hcoll : (s.client.mergePage load.pageSize ⟨rows,some q⟩).collection k = s.client.collection k :=
    congrArg (·.1) hentry
  have happlied : (s.client.mergePage load.pageSize ⟨rows,some q⟩).view.applied.get? k =
      s.client.view.applied.get? k := congrArg (·.2.1) hentry
  have hsnap' : (s.client.mergePage load.pageSize ⟨rows,some q⟩).view.snapshotLsn =
      s.client.view.snapshotLsn :=
    congrArg (·.2.2.2.2) (SubsetClient.foldl_mergeRow_frame q rows s.client)
  have hfloor : (s.client.mergePage load.pageSize ⟨rows,some q⟩).view.floor k = s.client.view.floor k := by
    rw [SubsetView.floor,SubsetView.floor,happlied,hsnap']
  refine ⟨?_,fun r hr' => ?_,fun w hw => ?_,fun hk => ?_⟩
  · simp only [hfloor,hsnap']
    exact hr.floor
  · simp only [hcoll] at hr'
    exact ha.grows hload (hr.inside r hr')
  · simp only [happlied,hcoll] at hw ⊢
    exact hr.tombstone w hw
  · simp only [hfloor] at hk
    have hold := hr.right hk
    simp only [hcoll]
    rw [hold]
    cases hsel : s.table.selected k with
    | none => rfl
    | some r =>
      by_cases hin : s.client.inView r = true
      · rw [Option.filter_eq_some_iff.mpr ⟨rfl,hin⟩,Option.filter_eq_some_iff.mpr ⟨rfl,ha.grows hload hin⟩]
      · by_cases hin' : (s.client.mergePage load.pageSize ⟨rows,some q⟩).inView r = true
        · have hnone : s.client.collection k = none := by
            rw [hold,hsel]
            simp [Option.filter,hin]
          obtain ⟨hreach,hcursor⟩ := reaches_of_grown hload hin' hin
          exact (h.not_missed hr hload hpage ha hnot hk hnone hsel hreach hcursor hin).elim
        · simp [Option.filter,hin,hin']

end page

/-- The window of a seed has the rows of its page and no others of the table then. -/
lemma seedPage_inView (hlimit : 0 < d.limit) {q : ℕ} {rows : List d.TypedRow} {t : SubsetTable d}
    (hrows : Keyset.IsPage d.cmp (fun r => t.selected (d.key r) = some r) d.offset d.limit rows)
    (hempty : d.offset = 0 ∨ rows ≠ [] ∨ ∀ k, t.selected k = none) {r : d.TypedRow}
    (hr : t.selected (d.key r) = some r) :
    (s.client.seedPage ⟨rows,some q⟩).inView r = true ↔ r ∈ rows := by
  rw [inView_iff]
  simp only [SubsetClient.seedPage]
  constructor
  · rintro ⟨hlow,hhigh⟩
    refine hrows.mem_of_between hr ?_ ?_
    · rcases hempty with hzero | hne | hnone
      · exact .inl hzero
      · by_cases hzero : d.offset = 0
        · exact .inl hzero
        · obtain ⟨f,tail,rfl⟩ := List.exists_cons_of_ne_nil hne
          exact .inr ⟨f,rfl,hlow f (by simp [hzero])⟩
      · rw [hnone] at hr
        cases hr
    · rcases hhigh with hended | hhigh
      · left
        simpa [hlimit.ne'] using hended
      · cases hl : rows.getLast? with
        | none =>
          rw [List.getLast?_eq_none_iff.mp hl]
          exact .inl hlimit
        | some l => exact .inr ⟨l,rfl,hhigh l hl⟩
  · refine fun hmem => ⟨fun f hf => ?_,.inr fun l hl => Keyset.le_getLast hrows.sorted hmem hl⟩
    split_ifs at hf
    · exact Keyset.head_le hrows.sorted hmem hf
    · cases hf

lemma Inv.seed_row (hlimit : 0 < d.limit) (h : s.Inv) {o q : ℕ} {rows : List d.TypedRow}
    (hseed : s.SeedInv o rows q) (k : String) :
    RowInv { s with client := s.client.seedPage ⟨rows,some q⟩ } o k := by
  obtain ⟨hbelow,hbefore,t,hrows,hsince,hempty⟩ := hseed
  obtain ⟨hself,hother⟩ := SubsetClient.seedPage_entry ⟨rows,some q⟩ h.consistent
    (page_keys hrows fun r hr => hr) rfl
  have hwindow : ∀ r, t.selected (d.key r) = some r →
      ((s.client.seedPage ⟨rows,some q⟩).inView r = true ↔ r ∈ rows) :=
    fun r hr => seedPage_inView hlimit hrows hempty hr
  have hfloor : (s.client.seedPage ⟨rows,some q⟩).view.floor k = q := by
    by_cases hk : k ∈ rows.map d.key
    · obtain ⟨r,hr,rfl⟩ := List.mem_map.mp hk
      have happlied := congrArg (·.2.1) (hself r hr)
      simp only [SubsetClient.entry] at happlied
      rw [SubsetView.floor,happlied]
      rfl
    · have happlied := congrArg (·.2.1) (hother k hk)
      simp only [SubsetClient.entry] at happlied
      rw [SubsetView.floor,happlied]
      rfl
  have hcoll : ∀ r, (s.client.seedPage ⟨rows,some q⟩).collection k = some r → r ∈ rows ∧ d.key r = k := by
    intro r hr
    by_cases hk : k ∈ rows.map d.key
    · obtain ⟨r',hr',rfl⟩ := List.mem_map.mp hk
      have hsome := (congrArg (·.1) (hself r' hr')).symm.trans hr
      exact Option.some.inj hsome ▸ ⟨hr',rfl⟩
    · have hsome := (congrArg (·.1) (hother k hk)).symm.trans hr
      cases hsome
  refine ⟨?_,fun r hr => ?_,fun w hw => .inl ?_,fun hk => ?_⟩
  · simp only [hfloor]
    exact ⟨le_rfl,hbelow⟩
  · obtain ⟨hmem,-⟩ := hcoll r hr
    exact (hwindow r (hrows.mem hmem)).mpr hmem
  · by_cases hk : k ∈ rows.map d.key
    · obtain ⟨r,hr,rfl⟩ := List.mem_map.mp hk
      have hsome := congrArg (·.1) (hself r hr)
      simp only [SubsetClient.entry] at hsome
      simp [hsome]
    · have happlied := congrArg (·.2.1) (hother k hk)
      simp only [SubsetClient.entry] at happlied
      simp only [happlied] at hw
      cases hw
  · simp only [hfloor] at hk
    have hcurrent : s.table.selected k = t.selected k := by
      refine hsince k fun c hc hkey => ?_
      rw [← List.take_append_drop o s.feed] at hc
      rcases List.mem_append.mp hc with hc | hc
      · exact hbefore c hc
      · exact hk c hc hkey
    dsimp only
    rw [hcurrent]
    by_cases hmem : k ∈ rows.map d.key
    · obtain ⟨r,hr,rfl⟩ := List.mem_map.mp hmem
      have hsel := hrows.mem hr
      have hsome := congrArg (·.1) (hself r hr)
      simp only [SubsetClient.entry] at hsome
      rw [hsome,hsel]
      exact (Option.filter_eq_some_iff.mpr ⟨rfl,(hwindow r hsel).mpr hr⟩).symm
    · have hnone := congrArg (·.1) (hother k hmem)
      simp only [SubsetClient.entry] at hnone
      rw [hnone]
      cases hsel : t.selected k with
      | none => rfl
      | some r =>
        have hkey := SubsetTable.selected_keyed hsel
        subst hkey
        have hout : ¬(s.client.seedPage ⟨rows,some q⟩).inView r = true :=
          fun hin => hmem (List.mem_map_of_mem ((hwindow r hsel).mp hin))
        simp [Option.filter,hout]

/-- What is known of a row depends on the database, the feed and the client. -/
lemma RowInv.congr {s' : SubsetSystem d} (h : s.RowInv i k) (ht : s'.table = s.table) (hl : s'.lsn = s.lsn)
    (hf : s'.feed = s.feed) (hc : s'.client = s.client) : s'.RowInv i k := by
  obtain ⟨⟩ := s'
  dsimp only at ht hl hf hc
  subst ht hl hf hc
  exact ⟨h.floor,h.inside,h.tombstone,h.right⟩

lemma LoadInv.congr {s' : SubsetSystem d} {load : SubsetLoad d} (h : s.LoadInv load)
    (ht : s'.table = s.table) (hl : s'.lsn = s.lsn) (hf : s'.feed = s.feed)
    (hc : s'.client.frame = s.client.frame) : s'.LoadInv load := by
  obtain ⟨table,lsn,feed,client,tail,seeding,loads⟩ := s'
  dsimp only at ht hl hf hc
  subst ht hl hf
  obtain ⟨hlower,hboundary,hpage⟩ := h.of_frame hc
  exact ⟨hlower,hboundary,hpage⟩

lemma SeedInv.congr {s' : SubsetSystem d} {o q : ℕ} {rows : List d.TypedRow} (h : s.SeedInv o rows q)
    (ht : s'.table = s.table) (hl : s'.lsn = s.lsn) (hf : s'.feed = s.feed) : s'.SeedInv o rows q := by
  obtain ⟨⟩ := s'
  dsimp only at ht hl hf
  subst ht hl hf
  exact ⟨h.below,h.before,h.page⟩

end client

section steps
variable {s : SubsetSystem d}

/-- A step of the client, and of what it waits for, that leaves the database and the feed alone. -/
lemma Inv.of_client (h : s.Inv) {s' : SubsetSystem d} (ht : s'.table = s.table) (hl : s'.lsn = s.lsn)
    (hf : s'.feed = s.feed) (hconsistent : s'.client.Consistent)
    (hgeneration : ∀ load ∈ s'.loads, load.generation ≤ s'.client.windowGeneration)
    (hseeding : ∀ o page, s'.seeding = some (o,page) → o ≤ s.feed.length ∧
      ∀ rows q, page = some (rows,q) → s.SeedInv o rows q)
    (hsynced : ∀ i, s'.tail = some i → s'.Synced i) : s'.Inv := by
  refine ⟨?_,hf ▸ h.sorted,?_,hf ▸ h.keyed,hconsistent,hgeneration,fun o page ho => ?_,hsynced⟩
  · rw [hf,hl]
    exact h.below
  · rw [hf,ht]
    exact h.latest
  · obtain ⟨hlen,hseed⟩ := hseeding o page ho
    exact ⟨hf ▸ hlen,fun rows q hp => (hseed rows q hp).congr ht hl hf⟩

lemma Inv.deliver (h : s.Inv) {i : ℕ} {change : FeedChange d} (hi : s.tail = some i)
    (hfeed : s.feed[i]? = some change) : Inv { s with
      client := s.client.applyEnvelope (.of change.key change.value change.lsn)
      tail := some (i + 1) } := by
  have hframe := s.client.applyEnvelope_frame change.key change.value change.lsn
  have hsync := h.synced i hi
  have hlt := (List.getElem?_eq_some_iff.mp hfeed).1
  have hmem := List.mem_of_getElem? hfeed
  simp only [SubsetClient.frame,Prod.mk.injEq] at hframe
  obtain ⟨hb,hlow,hended,hgen,-⟩ := hframe
  refine h.of_client rfl rfl rfl ?_ (fun load hl => ?_) h.seeding fun j hj => ?_
  · intro k
    by_cases hfresh : s.client.view.floor change.key ≤ change.lsn
    · obtain ⟨hself,hother⟩ :=
        SubsetClient.applyEnvelope_fresh h.consistent hfresh (h.keyed change hmem)
      by_cases hk : k = change.key
      · subst hk
        rcases hself with hnew | ⟨hsame,-⟩
        · exact SubsetClient.consistent_of_eq hnew Iff.rfl
        · exact SubsetClient.consistent_of_entry hsame (h.consistent _)
      · exact SubsetClient.consistent_of_entry (hother k hk) (h.consistent k)
    · rw [SubsetClient.applyEnvelope_stale (Nat.not_le.mp hfresh)]
      exact h.consistent k
  · exact (h.generation load hl).trans hgen.ge
  · obtain rfl := Option.some.inj hj
    refine ⟨hlt,fun k => (h.deliver_row hfeed (hsync.rows k)).congr rfl rfl rfl rfl,fun he f hf b hbd => ?_,
      fun load hl hg => ?_⟩
    · exact hsync.low (hended ▸ he) f (hlow ▸ hf) b (hb ▸ hbd)
    · exact (hsync.loads load hl (hg.trans hgen)).congr rfl rfl rfl
        (s.client.applyEnvelope_frame change.key change.value change.lsn)

lemma Inv.seed (hlimit : 0 < d.limit) (h : s.Inv) {o q : ℕ} {rows : List d.TypedRow}
    (hs : s.seeding = some (o,some (rows,q))) : Inv { s with
      client := s.client.seedPage ⟨rows,some q⟩
      tail := some o
      seeding := none } := by
  obtain ⟨hlen,hseeds⟩ := h.seeding o _ hs
  have hseed := hseeds rows q rfl
  obtain ⟨t,hrows,-,-⟩ := hseed.page
  obtain ⟨hself,hother⟩ := SubsetClient.seedPage_entry ⟨rows,some q⟩ h.consistent
    (page_keys hrows fun r hr => hr) rfl
  refine h.of_client rfl rfl rfl (fun k => ?_) (fun load hl => ?_) (by simp) fun i hi => ?_
  · by_cases hk : k ∈ rows.map d.key
    · obtain ⟨r,hr,rfl⟩ := List.mem_map.mp hk
      exact SubsetClient.consistent_of_eq (hself r hr) (by simp)
    · exact SubsetClient.consistent_of_eq (hother k hk) (by simp)
  · exact (h.generation load hl).trans (Nat.le_succ _)
  · obtain rfl := Option.some.inj hi
    refine ⟨hlen,fun k => (h.seed_row hlimit hseed k).congr rfl rfl rfl rfl,fun _ f hf b hb => ?_,
      fun load hl hg => ?_⟩
    · simp only [SubsetClient.seedPage] at hf hb
      split_ifs at hf
      · exact Keyset.head_le hrows.sorted (List.mem_of_mem_getLast? hb) hf
      · cases hf
    · -- no load that is in flight was asked for in the new window
      have hle := h.generation load hl
      simp only [SubsetClient.seedPage] at hg
      omega

/-- A load ends. -/
lemma Inv.finish (h : s.Inv) {pre post : List (SubsetLoad d)} {load : SubsetLoad d}
    (hloads : s.loads = pre ++ load::post) :
    Inv { s with client := s.client.finishLoad, loads := pre ++ post } := by
  have hframe := (s.client.finishLoad_entry "").1
  have hsub : ∀ l ∈ pre ++ post, l ∈ s.loads := by
    intro l hl
    rw [hloads]
    exact (List.Sublist.append_left (List.sublist_cons_self load post) pre).subset hl
  have hgen : s.client.finishLoad.windowGeneration = s.client.windowGeneration := congrArg (·.2.2.2.1) hframe
  refine h.of_client rfl rfl rfl (fun k => ?_) (fun l hl => (h.generation l (hsub l hl)).trans hgen.ge) h.seeding
    fun i hi => ?_
  · rcases (s.client.finishLoad_entry k).2 with hsame | ⟨hgone,hnone⟩
    · exact SubsetClient.consistent_of_entry hsame (h.consistent k)
    · exact SubsetClient.consistent_of_eq hnone (by simpa using not_not.mp ((h.consistent k).not.mp hgone))
  · have hsync := h.synced i hi
    refine ⟨hsync.next,fun k => (hsync.rows k).finishLoad.congr rfl rfl rfl rfl,?_,fun l hl hg => ?_⟩
    · have hframe' := hframe
      simp only [SubsetClient.frame,Prod.mk.injEq] at hframe'
      obtain ⟨hb,hlow,hended,-,-⟩ := hframe'
      exact fun he f hf b hbd => hsync.low (hended ▸ he) f (hlow ▸ hf) b (hb ▸ hbd)
    · exact (hsync.loads l (hsub l hl) (hg.trans hgen)).congr rfl rfl rfl hframe

lemma pageAllowed {i q : ℕ} {load : SubsetLoad d} {rows : List d.TypedRow} (hi : s.tail = some i)
    (hgen : load.generation = s.client.windowGeneration) (ha : s.Allowed (.arrive load rows q)) :
    s.PageAllowed i load rows q :=
  ⟨(ha i hi hgen).1,fun k hk => ((ha i hi hgen).2 k hk).1,fun k hk => ((ha i hi hgen).2 k hk).2⟩

/-- A page of the current window is merged. -/
lemma Inv.merge (h : s.Inv) {load : SubsetLoad d} (hload : load ∈ s.loads)
    (hgen : load.generation = s.client.windowGeneration) {rows : List d.TypedRow} {q : ℕ}
    (hpage : load.page = some (rows,q)) (ha : s.Allowed (.arrive load rows q)) :
    Inv { s with client := s.client.mergePage load.pageSize ⟨rows,some q⟩ } := by
  have hframe := SubsetClient.foldl_mergeRow_frame q rows s.client
  have hsame : (s.client.mergePage load.pageSize ⟨rows,some q⟩).windowGeneration = s.client.windowGeneration :=
    congrArg (·.2.2.2.1) hframe
  refine h.of_client rfl rfl rfl (SubsetClient.foldl_mergeRow_consistent rows h.consistent)
    (fun l hl => (h.generation l hl).trans hsame.ge) h.seeding fun i hi => ?_
  · have hsync := h.synced i hi
    have hallowed := pageAllowed (s := s) hi hgen ha
    have hinv := hsync.loads load hload hgen
    refine ⟨hsync.next,fun k => ?_,fun he f hf b hb => ?_,fun l hl hg => ?_⟩
    · by_cases hacc : ∃ r ∈ rows, d.key r = k ∧ s.client.Accepts q k
      · obtain ⟨r,hr,rfl,hacc⟩ := hacc
        exact h.merge_accepted hinv hpage hallowed hr hacc
      · exact h.merge_kept (hsync.rows k) hinv hpage hallowed fun r hr hk hq => hacc ⟨r,hr,hk,hq⟩
    · obtain ⟨hold,x,x',hx,hx',hle,-⟩ := hallowed.boundary hinv he
      dsimp only at hf hb
      rw [hx'] at hb
      obtain rfl := Option.some.inj hb
      exact Std.TransCmp.isLE_trans (hsync.low hold f (mergePage_lower ▸ hf) x hx) hle
    · obtain ⟨hlower,hboundary,hpages⟩ := hsync.loads l hl (hg.trans hsame)
      refine ⟨fun f hf => hlower f (mergePage_lower ▸ hf),fun he => ?_,fun rows' q' hp => ?_⟩
      · obtain ⟨hold,x,x',hx,hx',hle,-⟩ := hallowed.boundary hinv he
        obtain ⟨b,hb,hcursor⟩ := hboundary hold
        rw [hx] at hb
        obtain rfl := Option.some.inj hb
        exact ⟨x',hx',Std.TransCmp.isLE_trans hcursor hle⟩
      · obtain ⟨hsnap,hrest⟩ := hpages rows' q' hp
        have hsnap' : (s.client.mergePage load.pageSize ⟨rows,some q⟩).view.snapshotLsn =
            s.client.view.snapshotLsn := congrArg (·.2.2.2.2) hframe
        exact ⟨hsnap'.symm ▸ hsnap,hrest⟩

/-- The database answers a load. -/
lemma Inv.query (h : s.Inv) {pre post : List (SubsetLoad d)} {load : SubsetLoad d}
    (hloads : s.loads = pre ++ load::post) {rows : List d.TypedRow}
    (hrows : Keyset.IsPage d.cmp (fun r => s.table.selected (d.key r) = some r ∧
      (d.cursorPredicate load.cursor).sqlEval r.row (fun _ => ∅) = .yes) 0 load.pageSize rows) :
    Inv { s with loads := pre ++ { load with page := some (rows,s.lsn) }::post } := by
  have hload : load ∈ s.loads := hloads ▸ List.mem_append_right _ (.head _)
  have hcases : ∀ l ∈ pre ++ { load with page := some (rows,s.lsn) }::post,
      l ∈ s.loads ∨ l = { load with page := some (rows,s.lsn) } := by
    intro l hl
    rw [hloads]
    simp only [List.mem_append,List.mem_cons] at hl ⊢
    tauto
  refine h.of_client rfl rfl rfl h.consistent (fun l hl => ?_) h.seeding fun i hi => ?_
  · rcases hcases l hl with hl | rfl
    · exact h.generation l hl
    · exact h.generation load hload
  · have hsync := h.synced i hi
    refine ⟨hsync.next,fun k => (hsync.rows k).congr rfl rfl rfl rfl,hsync.low,fun l hl hg => ?_⟩
    rcases hcases l hl with hl | rfl
    · exact (hsync.loads l hl hg).congr rfl rfl rfl rfl
    · obtain ⟨hlower,hboundary,-⟩ := hsync.loads load hload hg
      refine ⟨hlower,hboundary,fun rows' q hp => ?_⟩
      obtain ⟨rfl,rfl⟩ := Prod.mk.inj (Option.some.inj hp)
      have hfloor := (hsync.rows "").floor
      refine ⟨hfloor.1.trans hfloor.2,le_rfl,s.table,?_,fun _ _ => rfl⟩
      simp only [SubsetDef.cursorPredicate_spec] at hrows
      exact hrows

lemma inv_step (hlimit : 0 < d.limit) {a : Act d} {s' : SubsetSystem d} (h : s.Inv) (ha : s.Allowed a)
    (hst : Step s a s') : s'.Inv := by
  cases hst with
  | commit ws hl hlsn => exact h.moved (moves_commit s ws hl hlsn)
  | log hlsn =>
    have hmoves : s.Moves s.table _ [] := ⟨hlsn,by simp,List.Pairwise.nil,fun _ => rfl⟩
    have hmoved := h.moved hmoves
    rwa [moved,List.append_nil] at hmoved
  | openFeed ho =>
    refine h.of_client rfl rfl rfl h.consistent h.generation (fun o page hp => ?_) (by simp)
    obtain ⟨rfl,rfl⟩ := Prod.mk.inj (Option.some.inj hp)
    exact ⟨ho,by simp⟩
  | querySeed hs hrows =>
    refine h.of_client rfl rfl rfl h.consistent h.generation (fun o page hp => ?_) fun i hi => ?_
    · obtain ⟨rfl,rfl⟩ := Prod.mk.inj (Option.some.inj hp)
      refine ⟨(h.seeding _ _ hs).1,fun rows q hq => ?_⟩
      obtain ⟨rfl,rfl⟩ := Prod.mk.inj (Option.some.inj hq)
      exact ⟨le_rfl,fun c hc => h.below c (List.mem_of_mem_take hc),s.table,hrows,fun _ _ => rfl,ha⟩
    · have hsync := h.synced i hi
      exact ⟨hsync.next,fun k => (hsync.rows k).congr rfl rfl rfl rfl,hsync.low,
        fun l hl hg => (hsync.loads l hl hg).congr rfl rfl rfl rfl⟩
  | seed hs => exact h.seed hlimit hs
  | failSeed =>
    refine h.of_client rfl rfl rfl h.consistent h.generation (by simp) fun i hi => ?_
    have hsync := h.synced i hi
    exact ⟨hsync.next,fun k => (hsync.rows k).congr rfl rfl rfl rfl,hsync.low,
      fun l hl hg => (hsync.loads l hl hg).congr rfl rfl rfl rfl⟩
  | deliver hi hfeed => exact h.deliver hi hfeed
  | loadMore hended hsize hb =>
    refine h.of_client rfl rfl rfl h.consistent (fun l hl => ?_) h.seeding fun i hi => ?_
    · rcases List.mem_append.mp hl with hl | hl
      · exact h.generation l hl
      · obtain rfl := List.mem_singleton.mp hl
        exact le_rfl
    · have hsync := h.synced i hi
      refine ⟨hsync.next,fun k => ?_,hsync.low,fun l hl hg => ?_⟩
      · exact ((hsync.rows k).of_entry (c := { s.client with loadsInFlight := s.client.loadsInFlight + 1 })
          rfl rfl).congr rfl rfl rfl rfl
      · rcases List.mem_append.mp hl with hl | hl
        · exact (hsync.loads l hl hg).congr rfl rfl rfl rfl
        · obtain rfl := List.mem_singleton.mp hl
          refine ⟨fun f hf => hsync.low hended f hf _ hb,fun _ => ⟨_,hb,?_⟩,by simp⟩
          rw [show d.cmp _ _ = .eq from Std.ReflCmp.compare_self]
          rfl
  | query hloads hnone hrows => exact h.query hloads hrows
  | arrive hloads hpage =>
    unfold SubsetClient.loaded
    split_ifs with hgen
    · exact (h.merge (hloads ▸ List.mem_append_right _ (.head _)) hgen hpage ha).finish hloads
    · exact h.finish hloads
  | fail hloads => exact h.finish hloads

lemma inv_run (hlimit : 0 < d.limit) {t : SubsetSystem d} (h : s.Inv) (hrun : GuardedSteps s t) : t.Inv := by
  induction hrun with
  | refl => exact h
  | tail _ hst ih =>
    obtain ⟨a,ha,hst⟩ := hst
    exact inv_step hlimit ih ha hst

end steps

/-- The collection is the rows of the table that match and stand in the window. -/
def Converged (s : SubsetSystem d) : Prop :=
  ∀ k, s.client.collection k = (s.table.selected k).filter s.client.inView

theorem window_converges (hlimit : 0 < d.limit) {table : SubsetTable d} {lsn : ℕ} {s : SubsetSystem d}
    (hrun : GuardedSteps (new table lsn) s) (hquiet : s.Quiet) : s.Converged := by
  have h := inv_run hlimit (inv_new table lsn) hrun
  have hsync := h.synced _ hquiet.1
  exact fun k => (hsync.rows k).right (by simp)

end SubsetSystem

/-- A number for a key and another one beside it, one row a page. -/
def SubsetDef.sample : SubsetDef where
  types _ := .int
  pk := 0
  orderBy := none
  limit := 1
  offset := 0
  selects _ := true
  doubleText := OrderedFloat.toText

def SubsetDef.TypedRow.sample (id v : ℤ) : SubsetDef.sample.TypedRow where
  row := ⟨[.int id,.int v]⟩
  typed
    | 0 => rfl
    | 1 => rfl
    | _ + 2 => trivial
  key := by simp [SubsetDef.sample,Row.cell]

/-- Two rows. -/
def SubsetTable.sample (v : ℤ) : SubsetTable .sample where
  get k := if k = "1" then some (.sample 1 0) else if k = "2" then some (.sample 2 v) else none
  keyed := by
    intro k r hr
    split_ifs at hr with hone htwo
    · rw [← Option.some.inj hr,hone]
      rfl
    · rw [← Option.some.inj hr,htwo]
      rfl

lemma SubsetTable.selected_sample (v : ℤ) (r : SubsetDef.sample.TypedRow) :
    (sample v).selected (SubsetDef.sample.key r) = some r ↔ r = .sample 1 0 ∨ r = .sample 2 v := by
  constructor
  · intro h
    have hget := (Option.filter_eq_some_iff.mp h).1
    simp only [sample] at hget
    split_ifs at hget
    · exact .inl (Option.some.inj hget).symm
    · exact .inr (Option.some.inj hget).symm
  · rintro (rfl | rfl) <;> rfl

namespace SubsetSystem

/-- The first row is loaded, and a page with the second one is in flight. -/
def sampleInFlight : SubsetSystem .sample where
  table := .sample 0
  lsn := 1
  feed := []
  client := { SubsetClient.new.seedPage ⟨[.sample 1 0],some 1⟩ with loadsInFlight := 1 }
  tail := some 0
  seeding := none
  loads := [⟨1,1,.sample 1 0,some ([.sample 2 0],1)⟩]

lemma guarded_sampleInFlight : GuardedSteps (new (.sample 0) 1) sampleInFlight := by
  have hfirst : Keyset.IsPage SubsetDef.sample.cmp
      (fun r => (SubsetTable.sample 0).selected (SubsetDef.sample.key r) = some r) 0 1 [.sample 1 0] := by
    refine ⟨[.sample 1 0,.sample 2 0],by simp; rfl,fun r => ?_,rfl⟩
    refine Iff.trans ?_ (SubsetTable.selected_sample 0 r).symm
    simp
  have hsecond : Keyset.IsPage SubsetDef.sample.cmp
      (fun r => (SubsetTable.sample 0).selected (SubsetDef.sample.key r) = some r ∧
        (SubsetDef.sample.cursorPredicate (.sample 1 0)).sqlEval r.row (fun _ => ∅) = .yes) 0 1
      [.sample 2 0] := by
    refine ⟨[.sample 2 0],by simp,fun r => ?_,rfl⟩
    dsimp only
    rw [SubsetTable.selected_sample,SubsetDef.cursorPredicate_spec,List.mem_singleton]
    constructor
    · rintro rfl
      exact ⟨.inr rfl,rfl⟩
    · rintro ⟨rfl | rfl,hlt⟩
      · cases hlt
      · rfl
  refine .head ⟨.other,trivial,.openFeed _ (o := 0) le_rfl⟩ ?_
  refine .head ⟨.querySeed [.sample 1 0],.inl rfl,.querySeed _ rfl hfirst⟩ ?_
  refine .head ⟨.other,trivial,.seed _ rfl⟩ ?_
  refine .head ⟨.other,trivial,.loadMore _ (b := .sample 1 0) rfl Nat.one_pos rfl⟩ ?_
  exact .single ⟨.other,trivial,@Step.query _ _ [] [] ⟨1,1,.sample 1 0,none⟩ rfl rfl [.sample 2 0] hsecond⟩

/-- The page arrives, and then the second row changes. -/
theorem sample_window_converges : ∃ s, GuardedSteps (new (.sample 0) 1) s ∧ s.Quiet ∧
    s.client.collection "2" = some (.sample 2 1) ∧ s.Converged := by
  have hallowed : sampleInFlight.Allowed (.arrive ⟨1,1,.sample 1 0,some ([.sample 2 0],1)⟩ [.sample 2 0] 1) := by
    intro i hi _
    obtain rfl := Option.some.inj hi
    refine ⟨.inr (.inr ?_),?_⟩
    · simp only [Option.mem_def]
      rintro b hb l hl
      obtain rfl := Option.some.inj hb
      obtain rfl := Option.some.inj hl
      rfl
    · rintro k ⟨⟨c,hc,-⟩,-⟩
      cases hc
  have hpage := guarded_sampleInFlight.tail
    ⟨_,hallowed,@Step.arrive _ _ [] [] _ rfl [.sample 2 0] 1 rfl⟩
  have hcommit := hpage.tail ⟨.other,trivial,.commit _ [⟨"2",some (.sample 2 1),by rintro r ⟨⟩; rfl⟩]
    (l := 1) le_rfl Nat.one_lt_two⟩
  have hrun := hcommit.tail ⟨.other,trivial,@Step.deliver _ _ 0 ⟨"2",some (.sample 2 1),1⟩ rfl rfl⟩
  exact ⟨_,hrun,⟨rfl,rfl,rfl⟩,rfl,window_converges Nat.one_pos hrun ⟨rfl,rfl,rfl⟩⟩

/-- The second row changes while the page is in flight: it is outside the window then, and the page brings
what it was. -/
theorem sample_overtaken : ¬∀ s, Steps (new (.sample 0) 1) s → s.Quiet → s.Converged := by
  intro h
  have hstart : Steps (new (.sample 0) 1) sampleInFlight :=
    Relation.ReflTransGen.mono (fun _ _ ⟨a,_,hst⟩ => ⟨a,hst⟩) _ _ guarded_sampleInFlight
  have hcommit := hstart.tail ⟨.other,.commit _ [⟨"2",some (.sample 2 1),by rintro r ⟨⟩; rfl⟩]
    (l := 1) le_rfl Nat.one_lt_two⟩
  have hdeliver := hcommit.tail ⟨.other,@Step.deliver _ _ 0 ⟨"2",some (.sample 2 1),1⟩ rfl rfl⟩
  have hrun := hdeliver.tail ⟨_,@Step.arrive _ _ [] [] _ rfl [.sample 2 0] 1 rfl⟩
  have hrow := congrArg (Option.map (·.row)) (h _ hrun ⟨rfl,rfl,rfl⟩ "2")
  exact absurd hrow (by decide +kernel)

end SubsetSystem

end ElectricCircuits
