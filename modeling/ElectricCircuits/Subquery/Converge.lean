import ElectricCircuits.Subquery.Runs

/-! A subquery shape at work is a view at work, whatever the timing of its query-backs: what is on its stream and in
its bookkeeping steps as the view does. When nothing is left to do its stream shows its table, and at no time a row
that is older than what was processed. -/
namespace ElectricCircuits

/-- A table and one of its subquery shapes, over a run. -/
structure ShapeSite where
  ts : TableSchema
  equals : ColumnEquality
  base : String → Option Row
  log : List RowEvent
  shapeId : String
  shape : SubqueryShape

/-- Where a run is. -/
structure ShapeWorld where
  committed : ℕ
  processed : ℕ
  sets : NodeSets
  outer : OuterTier
  work : List Work
  walks : List FlipWalk

namespace ShapeSite
variable (S : ShapeSite)

def site : Site Json where
  ts := S.ts
  equals := S.equals
  base := S.base
  log := S.log
  gate := S.shape.gate
  pred := S.shape.pred
  image r := S.ts.rowToJsonCols r S.shape.outCols

inductive Step : ShapeWorld → ShapeWorld → Prop
  | commit (w : ShapeWorld) (h : w.committed < S.log.length) : Step w { w with committed := w.committed+1 }
  | delta (w : ShapeWorld) (e : RowEvent) (traced : Bool) (sets : NodeSets) (work : List Work)
    (hlt : w.processed < w.committed) (he : S.log[w.processed]? = some e)
    (hkept : Work.Covers S.shape.pred S.equals w.work work) (hflips : Flips w.sets sets work) : Step w { w with
      processed := w.processed+1
      sets := sets
      outer := w.outer.onTableDelta S.ts sets.eval traced e.delta e.stamp e.txid
      work := work }
  | turn (w : ShapeWorld) (sets : NodeSets) (work : List Work) (hkept : Work.Covers S.shape.pred S.equals w.work work)
    (hflips : Flips w.sets sets work) : Step w { w with sets := sets, work := work }
  | others (w : ShapeWorld) (outer : OuterTier) (hstep : OuterTier.Step w.outer outer)
    (hshape : outer.shapes.get? S.shapeId = w.outer.shapes.get? S.shapeId)
    (hstream : outer.stream S.shape.streamPath = w.outer.stream S.shape.streamPath) :
    Step w { w with outer := outer }
  | take (w : ShapeWorld) (x : Work) (ws ws' : List Work) (h : w.work = ws ++ x :: ws') :
    Step w { w with work := ws ++ ws', walks := w.walks ++ [⟨x,x.requeries S.shape.pred,none⟩] }
  | begin (w : ShapeWorld) (x : Work) (q : Requery) (qs : List Requery) (vs vs' : List FlipWalk)
    (h : w.walks = vs ++ ⟨x,q :: qs,none⟩ :: vs') : Step w { w with
      outer := w.outer.beginQueryback S.shapeId
      walks := vs ++ ⟨x,q :: qs,some none⟩ :: vs' }
  | read (w : ShapeWorld) (x : Work) (q : Requery) (qs : List Requery) (vs vs' : List FlipWalk) (rows : List Row)
    (gate : SnapshotGate) (saw : RowEvent → Bool) (h : w.walks = vs ++ ⟨x,q :: qs,some none⟩ :: vs')
    (hgate : S.site.Tells gate saw) (hsaw : S.site.Snapshot w.processed w.committed saw)
    (hrows : S.site.Reads q saw rows) :
    Step w { w with walks := vs ++ ⟨x,q :: qs,some (some (rows,gate))⟩ :: vs' }
  | fail (w : ShapeWorld) (x : Work) (q : Requery) (qs : List Requery) (vs vs' : List FlipWalk)
    (h : w.walks = vs ++ ⟨x,q :: qs,some none⟩ :: vs') : Step w { w with
      outer := w.outer.endQueryback S.shapeId
      work := x :: w.work
      walks := vs ++ vs' }
  | land (w : ShapeWorld) (x : Work) (q : Requery) (qs : List Requery) (vs vs' : List FlipWalk) (rows : List Row)
    (gate : SnapshotGate) (txid : Option String)
    (h : w.walks = vs ++ ⟨x,q :: qs,some (some (rows,gate))⟩ :: vs') : Step w { w with
      outer := (w.outer.queryBack S.ts w.sets.eval S.shapeId rows gate txid).endQueryback S.shapeId
      walks := vs ++ ⟨x,qs,none⟩ :: vs' }
  | done (w : ShapeWorld) (x : Work) (vs vs' : List FlipWalk) (h : w.walks = vs ++ ⟨x,[],none⟩ :: vs') :
    Step w { w with walks := vs ++ vs' }

end ShapeSite

namespace ShapeWorld

/-- The view that the shape is, with what it records and shows. -/
def view (w : ShapeWorld) (recent : String → Option CommitStamp) (shown : String → Option Json) : World Json :=
  ⟨w.committed,w.processed,w.sets,w.work,w.walks,recent,shown⟩

end ShapeWorld

namespace ShapeSite
variable {S : ShapeSite} {w w' : ShapeWorld} {recent : String → Option CommitStamp} {shown : String → Option Json}

lemma Step.len (hstep : S.Step w w') : w.outer.pkDict.len ≤ w'.outer.pkDict.len := by
  cases hstep with
  | delta e traced sets work => exact OuterTier.len_emitForShapes ..
  | others outer hstep => exact hstep.len
  | begin x q qs vs vs' hw => rw [OuterTier.pkDict_beginQueryback]
  | fail x q qs vs vs' hw => rw [OuterTier.pkDict_endQueryback]
  | land x q qs vs vs' rows gate txid hw =>
    rw [OuterTier.pkDict_endQueryback]
    exact OuterTier.len_emitForShapes ..
  | _ => exact Nat.le_refl _

/-- The shape of a run: in a sound tier it records and shows what its view does. -/
structure Shows (S : ShapeSite) (w : ShapeWorld) (recent : String → Option CommitStamp)
    (shown : String → Option Json) : Prop where
  sound : w.outer.Sound
  seen : w.outer.Seen S.shapeId S.shape (w.view recent shown).inflight recent shown

/-- What a change of the table does to the shape is a step of its view. -/
lemma Shows.onTableDelta (h : S.Shows w recent shown) (hv : S.site.Valid) (htable : S.shape.outerTable = S.ts.table)
    {e : RowEvent} {traced : Bool} (hlt : w.processed < w.committed) (he : S.log[w.processed]? = some e)
    (hlen : (w.outer.onTableDelta S.ts w.sets.eval traced e.delta e.stamp e.txid).pkDict.len ≤ 2^32) :
    ∃ recent' shown', S.Shows { w with
        processed := w.processed+1
        outer := w.outer.onTableDelta S.ts w.sets.eval traced e.delta e.stamp e.txid } recent' shown' ∧
      S.site.Step (w.view recent shown) (ShapeWorld.view { w with
        processed := w.processed+1
        outer := w.outer.onTableDelta S.ts w.sets.eval traced e.delta e.stamp e.txid } recent' shown') := by
  have hsound : (w.outer.onTableDelta S.ts w.sets.eval traced e.delta e.stamp e.txid).Sound :=
    h.sound.onTableDelta traced e.delta e.stamp e.txid
  obtain ⟨hshown,hleft⟩ := h.seen.onTableDelta h.sound traced e.delta e.stamp e.txid hlen
  obtain ⟨hlog,he'⟩ := List.getElem?_eq_some_iff.mp he
  have hfits : e.Fits S.ts fun k => rowAt S.ts S.base k (S.log.take w.processed) :=
    hv.log (S.log.take w.processed) e (S.log.drop (w.processed+1))
      (by rw [← he',← List.drop_eq_getElem_cons hlog,List.take_append_drop]; rfl)
  by_cases hvisit : S.shapeId ∈ w.outer.visited S.ts traced e.delta ∧
      S.shape.gate.shouldSkip e.stamp.1 e.stamp.2 = false
  · refine ⟨_,_,⟨hsound,?_⟩,.decide (w.view recent shown) e hlt he hvisit.2⟩
    rw [← @Site.shownAfter_live _ S.site (w.view recent shown) e _ hfits,
      ← @Site.recentAfter_live _ S.site e _ hfits]
    exact hshown hvisit
  · refine ⟨_,_,⟨hsound,hleft hvisit⟩,.pass (w.view recent shown) e hlt he ?_⟩
    by_cases hsees : S.shape.gate.sees e = true
    · exact .inl hsees
    · have hnot : S.shapeId ∉ w.outer.visited S.ts traced e.delta :=
        fun hin => hvisit ⟨hin,Bool.eq_false_of_not_eq_true hsees⟩
      obtain ⟨s,hs,hfx,-⟩ := h.seen.shape
      have hfixed : w.outer.fixed S.shapeId = some S.shape := by rw [OuterTier.fixed_of_get hs,hfx]
      refine .inr fun r hr sets => ?_
      obtain ⟨t,ht,rfl⟩ : ∃ t ∈ e.delta, t.1 = r := by
        rw [hfits.delta_eq]
        rcases hr with hr | hr
        · exact ⟨(r,-1),by simp [hr],rfl⟩
        · exact ⟨(r,1),by simp [hr],rfl⟩
      exact if_neg (by simp [site,h.sound.unvisited hfixed htable hnot ht sets.eval])

/-- What a query-back emits is what its rows show in the view. -/
lemma landed_view (rows : List Row) (gate : SnapshotGate) :
    shownAfter S.ts (S.shape.shows S.ts w.sets.eval) (.queryBack gate) (rows.map (·,true)) recent shown =
      S.site.landed (w.view recent shown) rows gate :=
  @Site.shownAfter_queryBack _ S.site (w.view recent shown) rows gate

/-- Each step of the shape is some steps of its view. -/
theorem Shows.step (h : S.Shows w recent shown) (hv : S.site.Valid) (htable : S.shape.outerTable = S.ts.table)
    {slack : List (Option Work)} (hgood : S.site.Good slack (w.view recent shown)) (hstep : S.Step w w')
    (hlen : w'.outer.pkDict.len ≤ 2^32) : ∃ recent' shown', S.Shows w' recent' shown' ∧
      Relation.ReflTransGen S.site.Step (w.view recent shown) (w'.view recent' shown') := by
  cases hstep with
  | commit hlt => exact ⟨_,_,⟨h.sound,h.seen⟩,.single (.commit _ hlt)⟩
  | delta e traced sets work hlt he hkept hflips =>
    have hturn : S.Shows { w with sets := sets, work := work } recent shown := ⟨h.sound,h.seen⟩
    obtain ⟨recent',shown',hshows,hstep⟩ := hturn.onTableDelta hv htable hlt he hlen
    exact ⟨recent',shown',hshows,.head (.turn (w.view recent shown) sets work hkept hflips) (.single hstep)⟩
  | turn sets work hkept hflips =>
    exact ⟨_,_,⟨h.sound,h.seen⟩,.single (.turn (w.view recent shown) sets work hkept hflips)⟩
  | others outer hstep hshape hstream =>
    exact ⟨_,_,⟨hstep.sound h.sound,h.seen.other (hstep.grows h.sound) hlen hshape hstream⟩,.refl⟩
  | take x ws ws' hw =>
    refine ⟨_,_,⟨h.sound,?_⟩,.single (.take (w.view recent shown) x ws ws' hw)⟩
    have hcount : (w.walks ++ [(⟨x,x.requeries S.shape.pred,none⟩ : FlipWalk)]).filterMap FlipWalk.reading =
        w.walks.filterMap FlipWalk.reading := by
      rw [FlipWalk.reading_idle,List.append_nil]
    rw [World.inflight,ShapeWorld.view]
    dsimp only
    rw [hcount]
    exact h.seen
  | begin x q qs vs vs' hw =>
    refine ⟨_,_,⟨h.sound.beginQueryback S.shapeId,?_⟩,.single (.begin (w.view recent shown) x q qs vs vs' hw)⟩
    have hseen := h.seen.begin
    rw [World.inflight,ShapeWorld.view,hw,FlipWalk.reading_idle] at hseen
    rw [World.inflight,ShapeWorld.view,FlipWalk.reading_begun]
    exact hseen
  | read x q qs vs vs' rows gate saw hw hgate hsaw hrows =>
    refine ⟨_,_,⟨h.sound,?_⟩,
      .single (.read (w.view recent shown) x q qs vs vs' rows gate saw hw hgate hsaw hrows)⟩
    have hseen := h.seen
    rw [World.inflight,ShapeWorld.view,hw,FlipWalk.reading_begun] at hseen
    rw [World.inflight,ShapeWorld.view,FlipWalk.reading_begun]
    exact hseen
  | fail x q qs vs vs' hw =>
    refine ⟨_,_,⟨h.sound.endQueryback S.shapeId,?_⟩,.single (.fail (w.view recent shown) x q qs vs vs' hw)⟩
    have hseen := h.seen.done
    rw [World.inflight,ShapeWorld.view,hw,FlipWalk.reading_begun,Nat.add_sub_cancel] at hseen
    exact hseen
  | land x q qs vs vs' rows gate txid hw =>
    have hmem : (⟨x,q :: qs,some (some (rows,gate))⟩ : FlipWalk) ∈ w.walks :=
      hw ▸ List.mem_append_right _ List.mem_cons_self
    have hfine := hgood.walks _ hmem
    have hdistinct : Distinct S.ts (rows.map (·,true)) := ((hfine.read rows gate rfl).2 q rfl).distinct hv
    refine ⟨_,_,⟨(h.sound.queryBack hdistinct gate txid).endQueryback S.shapeId,?_⟩,
      .single (.land (w.view recent shown) x q qs vs vs' rows gate hw)⟩
    rw [OuterTier.pkDict_endQueryback] at hlen
    have hseen := (h.seen.queryBack h.sound hdistinct gate txid hlen).done
    rw [landed_view] at hseen
    rw [World.inflight,ShapeWorld.view,hw,FlipWalk.reading_begun,Nat.add_sub_cancel,
      ← @FlipWalk.reading_idle vs vs' x qs] at hseen
    exact hseen
  | done x vs vs' hw =>
    refine ⟨_,_,⟨h.sound,?_⟩,.single (.done (w.view recent shown) x vs vs' hw)⟩
    have hseen := h.seen
    rw [World.inflight,ShapeWorld.view,hw,FlipWalk.reading_idle] at hseen
    exact hseen

/-- A shape that was just created: its backfill returned the rows of a snapshot that match as the inner sets stood in
some state. The snapshot sees what is processed, and its gate tells of each commit what it saw. -/
structure Start (S : ShapeSite) (T : OuterTier) (s : SubqueryShape) (chunks : List (List Row)) (sets : NodeSets)
    (saw : RowEvent → Bool) (w : ShapeWorld) : Prop where
  reachable : T.Reachable
  unused : T.shapes.get? S.shapeId = none
  path : T.streams.get? s.streamPath = none
  table : s.outerTable = S.ts.table
  shape : S.shape = T.created s
  outer : w.outer = T.create S.ts S.shapeId s chunks
  rows : ∀ r, r ∈ chunks.flatten ↔
    rowAt S.ts S.base (S.ts.name r) (S.log.filter saw) = some r ∧ s.pred.matchesCtx r sets.eval = true
  gate : S.site.Tells s.gate saw
  le : w.processed ≤ w.committed
  past : ∀ e ∈ S.log.take w.processed, saw e = true
  future : ∀ e ∈ S.log.drop w.committed, saw e = false
  closed : S.site.Closed saw
  walks : w.walks = []

section
variable {T : OuterTier} {s : SubqueryShape} {chunks : List (List Row)} {sets : NodeSets} {saw : RowEvent → Bool}

lemma Start.view (h : S.Start T s chunks sets saw w) (sets' : NodeSets) (r : Row) : S.site.view sets' r =
    if s.pred.matchesCtx r sets'.eval then some (S.ts.rowToJsonCols r s.outCols) else none := by
  rw [Site.view,site,h.shape]
  rfl

/-- The backfill shows of each row what its snapshot sees, as the sets stood. -/
lemma Start.fold (h : S.Start T s chunks sets saw w) (hv : S.site.Valid) (k : String) :
    foldStream (fun _ => none) (w.outer.stream S.shape.streamPath) k =
      (rowAt S.ts S.base k (S.log.filter saw)).bind (S.site.view sets) := by
  have hstream : w.outer.stream S.shape.streamPath = OuterTier.backfill S.ts s.outCols chunks := by
    rw [h.outer,OuterTier.stream_create,h.shape]
    exact if_pos rfl
  have hisrow : ∀ {k r}, rowAt S.ts S.base k (S.log.filter saw) = some r → S.ts.IsRow r ∧ S.ts.name r = k :=
    fun hat => hv.rowAt_isRow S.site List.filter_sublist hat
  have hrow : ∀ r ∈ chunks.flatten, S.ts.keyString r = .ok k →
      rowAt S.ts S.base k (S.log.filter saw) = some r ∧ s.pred.matchesCtx r sets.eval = true := by
    intro r hr hkey
    obtain ⟨hat,hmatch⟩ := (h.rows r).mp hr
    rw [TableSchema.keyString_eq (hisrow hat).1] at hkey
    obtain rfl := Except.ok.inj hkey
    exact ⟨hat,hmatch⟩
  rw [hstream]
  cases hfold : foldStream (fun _ => none) (OuterTier.backfill S.ts s.outCols chunks) k with
  | some j =>
    rcases OuterTier.mem_of_foldStream_backfill S.ts s.outCols chunks k _ j hfold with ⟨r,hr,hkey,rfl⟩ | hnone
    · obtain ⟨hat,hmatch⟩ := hrow r hr hkey
      rw [hat,Option.bind_some,h.view,hmatch,if_pos rfl]
    · cases hnone
  | none =>
    cases hat : rowAt S.ts S.base k (S.log.filter saw) with
    | none => rfl
    | some r =>
      rw [Option.bind_some,h.view]
      split_ifs with hmatch
      · -- the row would be among those of the backfill
        obtain ⟨hr,rfl⟩ := hisrow hat
        have hin := (OuterTier.foldStream_backfill S.ts s.outCols chunks (S.ts.name r) fun _ => none).mpr
          (.inl ⟨r,(h.rows r).mpr ⟨hat,hmatch⟩,TableSchema.keyString_eq hr⟩)
        rw [hfold] at hin
        cases hin
      · rfl

/-- A run starts well. -/
lemma Start.shows (h : S.Start T s chunks sets saw w) (hv : S.site.Valid) : ∃ recent shown,
    S.Shows w recent shown ∧ S.site.Start sets (w.view recent shown) := by
  have hgate : S.site.gate = s.gate := by rw [site,h.shape]; rfl
  have hrows : ∀ r ∈ chunks.flatten, S.ts.IsRow r := fun r hr =>
    (hv.rowAt_isRow S.site List.filter_sublist ((h.rows r).mp hr).1).1
  have hget : w.outer.shapes.get? S.shapeId = some S.shape := by
    rw [h.outer,h.shape]
    exact AssocMap.get?_insert_self ..
  have hnew : S.shape.fixed = S.shape ∧ S.shape.inflightQuerybacks = 0 ∧ S.shape.recent = .empty := by
    rw [h.shape]
    exact ⟨rfl,rfl,rfl⟩
  refine ⟨fun _ => none,foldStream (fun _ => none) (w.outer.stream S.shape.streamPath),⟨?_,⟨S.shape,hget,hnew.1,?_,
    fun pk => ?_,fun i hi => ?_⟩,fun pk => rfl⟩,⟨h.le,?_,?_,?_,h.walks,fun _ => rfl,fun k => ?_⟩⟩
  · rw [h.outer]
    exact h.reachable.sound.create h.unused h.path hrows
  · rw [hnew.2.1,World.inflight,ShapeWorld.view,h.walks]
    rfl
  · rw [hnew.2.2]
    cases w.outer.pkDict.get pk <;> rfl
  · rw [hnew.2.2] at hi
    exact absurd rfl hi
  · rw [hgate]
    exact fun e he => (h.gate e (List.mem_of_mem_take he)).trans (h.past e he)
  · rw [hgate]
    exact fun e he => (h.gate e (List.mem_of_mem_drop he)).trans (h.future e he)
  · rw [hgate]
    exact h.gate.closed h.closed
  · rw [hgate]
    refine (h.fold hv k).trans ?_
    exact congrArg (fun es => (rowAt S.ts S.base k es).bind (S.site.view sets)) h.gate.filter.symm

/-- At any time of a run the stream shows what a view does that ran well. -/
lemma Start.run (h : S.Start T s chunks sets saw w) (hv : S.site.Valid) {slack : List (Option Work)}
    (hfinds : none ∈ slack ∨ S.site.pred.Finds S.equals ∧ Flips sets w.sets w.work)
    (hrun : Relation.ReflTransGen S.Step w w') (hlen : w'.outer.pkDict.len ≤ 2^32) :
    ∃ recent shown, S.Shows w' recent shown ∧ S.site.Good slack (w'.view recent shown) := by
  have htable : S.shape.outerTable = S.ts.table := by rw [h.shape]; exact h.table
  induction hrun with
  | refl =>
    obtain ⟨recent,shown,hshows,hstart⟩ := h.shows hv
    exact ⟨recent,shown,hshows,hstart.good hfinds⟩
  | tail _ hstep ih =>
    obtain ⟨recent,shown,hshows,hgood⟩ := ih (hstep.len.trans hlen)
    obtain ⟨recent',shown',hshows',hrun⟩ := hshows.step hv htable hgood hstep hlen
    exact ⟨recent',shown',hshows',hgood.run hv (hfinds.imp_right And.left) hrun⟩

/-- Whatever the order in which commits came in, nodes changed and query-backs were begun, read and emitted: once
nothing is left to process, to walk or to emit, the shape's stream shows of each key exactly the row that the
table has for it, if the row matches as the inner sets stand. The columns of the predicate's edges find what the engine
counts as equal, and what the sets have come to since the backfill is among the work. -/
theorem Start.converges (h : S.Start T s chunks sets saw w) (hv : S.site.Valid) (hfinds : s.pred.Finds S.equals)
    (hflips : Flips sets w.sets w.work) (hrun : Relation.ReflTransGen S.Step w w')
    (hlen : w'.outer.pkDict.len ≤ 2^32) (hprocessed : w'.processed = w'.committed) (hwork : w'.work = [])
    (hwalks : w'.walks = []) (k : String) :
    foldStream (fun _ => none) (w'.outer.stream s.streamPath) k =
      (rowAt S.ts S.base k (S.log.take w'.committed)).bind fun r =>
        if s.pred.matchesCtx r w'.sets.eval then some (S.ts.rowToJsonCols r s.outCols) else none := by
  have hpred : S.site.pred = s.pred := by rw [site,h.shape]; rfl
  obtain ⟨recent,shown,hshows,hgood⟩ := h.run hv (.inr ⟨hpred ▸ hfinds,hflips⟩) hrun hlen
  have hpath : S.shape.streamPath = s.streamPath := by rw [h.shape]; rfl
  rw [← hpath,hshows.seen.fold]
  refine (hgood.shown_of_quiet hprocessed hwork hwalks k).trans ?_
  exact congrArg _ (funext fun r => h.view w'.sets r)

/-- At no time does the stream show a row that is older than what was processed: what it shows under a key is the
row that the table had for it after some commit since then. Nothing is said of what the reads find, nor of the flips
that there have been. -/
theorem Start.fresh (h : S.Start T s chunks sets saw w) (hv : S.site.Valid)
    (hrun : Relation.ReflTransGen S.Step w w') (hlen : w'.outer.pkDict.len ≤ 2^32) (k : String) (j : Json)
    (hj : foldStream (fun _ => none) (w'.outer.stream s.streamPath) k = some j) :
    ∃ n r, w'.processed ≤ n ∧ n ≤ w'.committed ∧ rowAt S.ts S.base k (S.log.take n) = some r ∧
      j = S.ts.rowToJsonCols r s.outCols := by
  obtain ⟨recent,shown,hshows,hgood⟩ := h.run hv (.inl (List.mem_singleton_self none)) hrun hlen
  have hpath : S.shape.streamPath = s.streamPath ∧ S.shape.outCols = s.outCols := by rw [h.shape]; exact ⟨rfl,rfl⟩
  rw [← hpath.1,hshows.seen.fold] at hj
  rw [← hpath.2]
  exact hgood.shown_of_moment hj

end

/-- A row that comes to match when a value comes into the set of its column. -/
def sampleRow : Row := ⟨[.int 7,.int 3]⟩

def sampleShape : SubqueryShape :=
  ⟨"issues","s",.inSubquery 1 "levels" false,none,⟨0,10,10,[]⟩,0,.empty,0⟩

/-- The transaction that inserts the row, which the backfill does not see and the query-back does. -/
def sampleEvent : RowEvent := ⟨⟨none,some sampleRow⟩,(5,some 15),none⟩

def sampleGate : SnapshotGate := ⟨0,20,20,[]⟩

def sampleSets : NodeSets := fun sig v => decide (sig = "levels") && v.eqv (.int 3)

def sample : ShapeSite :=
  ⟨TableSchema.sample,.meant,fun _ => none,[sampleEvent],"shape",OuterTier.empty.created sampleShape⟩

/-- A shape without rows. -/
def sampleWorld : ShapeWorld :=
  ⟨0,0,fun _ _ => false,OuterTier.empty.create sample.ts "shape" sampleShape [],[],[]⟩

/-- The row is inserted, and read back when the value comes into its set. -/
def sampleTier : OuterTier :=
  let T := sampleWorld.outer.onTableDelta sample.ts (NodeSets.eval fun _ _ => false) false sampleEvent.delta
    sampleEvent.stamp sampleEvent.txid
  ((T.beginQueryback "shape").queryBack sample.ts sampleSets.eval "shape" [sampleRow] sampleGate none).endQueryback
    "shape"

lemma isRow_sampleRow : TableSchema.sample.IsRow sampleRow where
  width := rfl
  pk := by
    intro i hi c hc
    obtain rfl := List.mem_singleton.mp hi
    obtain rfl := Option.some.inj hc
    trivial

lemma closed_sample (saw : RowEvent → Bool) : sample.site.Closed saw := List.pairwise_singleton _ _

lemma valid_sample : sample.site.Valid where
  base := nofun
  log pre e post h := by
    obtain ⟨rfl,rfl,rfl⟩ : pre = [] ∧ e = sampleEvent ∧ post = [] := by
      cases pre with
      | nil =>
        obtain ⟨he,hpost⟩ := List.cons.inj h
        exact ⟨rfl,he.symm,hpost.symm⟩
      | cons d pre => simp [site,sample] at h
    exact ⟨nofun,fun n hn => Option.some.inj hn ▸ isRow_sampleRow,nofun,nofun,fun _ _ _ => rfl⟩

lemma start_sample : sample.Start OuterTier.empty sampleShape [] (fun _ _ => false) (fun _ => false) sampleWorld where
  reachable := .start
  unused := rfl
  path := rfl
  table := rfl
  shape := rfl
  outer := rfl
  rows r := by
    refine iff_of_false (List.not_mem_nil) ?_
    rintro ⟨hat,-⟩
    cases hat
  gate e he := by
    obtain rfl := List.mem_singleton.mp he
    decide
  le := Nat.le_refl 0
  past := nofun
  future _ _ := rfl
  closed := closed_sample _
  walks := rfl

lemma reads_sample : sample.site.Reads (.byCol 1 (.int 3)) (fun _ => true) [sampleRow] := by
  have hname : sample.site.ts.name sampleRow = "7" := by decide
  refine ⟨fun r hr => ?_,fun r hr _ => List.mem_singleton.mpr (RowEvent.eq_of_rowAt_insert hr),List.nodup_singleton _⟩
  obtain rfl := List.mem_singleton.mp hr
  rw [hname]
  decide

lemma tells_sample : sample.site.Tells sampleGate fun _ => true := fun _ he => by
  obtain rfl := List.mem_singleton.mp he
  decide

lemma snapshot_sample : sample.site.Snapshot 1 1 fun _ => true :=
  ⟨fun _ _ => rfl,fun _ _ _ => rfl,fun e he => absurd he List.not_mem_nil,closed_sample _⟩

lemma run_sample : Relation.ReflTransGen sample.Step sampleWorld ⟨1,1,sampleSets,sampleTier,[],[]⟩ := by
  refine .head (.commit _ (by decide)) (.head (.delta _ sampleEvent false (fun _ _ => false) [] (by decide) rfl
    (Work.covers_append [] []) (Flips.refl _ _)) (.head (.turn _ sampleSets [.flip "levels" (.int 3)]
    (Work.covers_append [] _) ?_)
    (.head (.take _ (.flip "levels" (.int 3)) [] [] rfl) (.head (.begin _ _ (.byCol 1 (.int 3)) [] [] [] rfl)
    (.head (.read _ _ _ _ [] [] [sampleRow] sampleGate _ rfl tells_sample snapshot_sample reads_sample)
    (.head (.land _ _ _ _ [] [] [sampleRow] sampleGate none rfl) (.head (.done _ _ [] [] rfl) .refl)))))))
  intro sig v h
  have hset : sampleSets sig v = true := Bool.eq_true_of_not_eq_false fun hf => h hf.symm
  obtain ⟨rfl,hv⟩ : sig = "levels" ∧ v.eqv (.int 3) = true := by
    simpa only [sampleSets,Bool.and_eq_true,decide_eq_true_eq] using hset
  exact ⟨.int 3,hv,List.mem_singleton_self _⟩

theorem sample_converges : foldStream (fun _ => none) (sampleTier.stream "s") "7" =
    some (.object [("id",.int 7),("level",.int 3)]) :=
  start_sample.converges valid_sample (fun l _ => ColumnEquality.finds_meant l.col) (.refl _ _) run_sample
    (by decide +kernel) rfl rfl rfl "7"

theorem sample_fresh : ∃ j n r, foldStream (fun _ => none) (sampleTier.stream "s") "7" = some j ∧ 1 ≤ n ∧ n ≤ 1 ∧
    rowAt sample.ts sample.base "7" (sample.log.take n) = some r ∧ j = sample.ts.rowToJsonCols r none := by
  have hsome : (foldStream (fun _ => none) (sampleTier.stream "s") "7").isSome = true := by decide +kernel
  obtain ⟨j,hj⟩ := Option.isSome_iff_exists.mp hsome
  obtain ⟨n,r,h⟩ := start_sample.fresh valid_sample run_sample (by decide +kernel) "7" j hj
  exact ⟨j,n,r,hj,h⟩

end ShapeSite
end ElectricCircuits
