import ElectricCircuits.Subquery.NodeOthers
import ElectricCircuits.Subquery.Converge

/-! A node of the tier is a view of its table, whose flips are handed on: whatever the timing of its query-backs, its
rows contribute as the view shows them. When nothing is left to do, its set has the values of its query. -/
namespace ElectricCircuits

/-- A table and one node over it, over a run. -/
structure NodeSite where
  ts : TableSchema
  equals : ColumnEquality
  base : String → Option Row
  log : List RowEvent
  sig : SubquerySig
  node : SubqueryNode
  gate : SnapshotGate

/-- Where a run is. -/
structure NodeWorld (D : Dbsp) where
  committed : ℕ
  processed : ℕ
  tier : NodeTier D
  work : List Work
  walks : List FlipWalk

/-- The flips that a call gave out are among the work. -/
def HandsOn (flips : List (SubquerySig × Flip)) (work : List Work) : Prop :=
  ∀ f ∈ flips, Work.flip f.1 f.2.value ∈ work

lemma FlipsOf.flips {sets sets' : NodeSets} {flips : List (SubquerySig × Flip)} (h : FlipsOf sets sets' flips)
    {work : List Work} (hwork : HandsOn flips work) : Flips sets sets' work := by
  intro sig v hne
  obtain ⟨f,hf,rfl,hv⟩ := h.all sig v hne
  exact ⟨f.2.value,(Value.eqv_comm _ _).trans hv,hwork f hf⟩

namespace NodeSite
variable {D : Dbsp} (S : NodeSite)

def site : Site Value where
  ts := S.ts
  equals := S.equals
  base := S.base
  log := S.log
  gate := S.gate
  pred := S.node.pred
  image r := r.cell S.node.projCol

/-- What else is called of the tier is for other nodes, or another table; its flips are among the work as well. -/
inductive Step : NodeWorld D → NodeWorld D → Prop
  | commit (w : NodeWorld D) (h : w.committed < S.log.length) : Step w { w with committed := w.committed+1 }
  | delta (w : NodeWorld D) (e : RowEvent) (work : List Work) (hlt : w.processed < w.committed)
    (he : S.log[w.processed]? = some e) (hkept : Work.Covers S.node.pred S.equals w.work work)
    (hflips : HandsOn (w.tier.onTableDelta S.ts e.delta e.stamp).2 work) : Step w { w with
      processed := w.processed+1
      tier := (w.tier.onTableDelta S.ts e.delta e.stamp).1
      work := work }
  | others (w : NodeWorld D) (tier : NodeTier D) (work : List Work) (hstep : w.tier.Elsewhere S.ts S.sig tier)
    (hkept : Work.Covers S.node.pred S.equals w.work work) (hflips : Flips w.tier.sets tier.sets work) :
    Step w { w with tier := tier, work := work }
  | take (w : NodeWorld D) (x : Work) (ws ws' : List Work) (h : w.work = ws ++ x :: ws') :
    Step w { w with work := ws ++ ws', walks := w.walks ++ [⟨x,x.requeries S.node.pred,none⟩] }
  | begin (w : NodeWorld D) (x : Work) (q : Requery) (qs : List Requery) (vs vs' : List FlipWalk)
    (h : w.walks = vs ++ ⟨x,q :: qs,none⟩ :: vs') : Step w { w with
      tier := w.tier.beginNodeQueryback S.sig
      walks := vs ++ ⟨x,q :: qs,some none⟩ :: vs' }
  | read (w : NodeWorld D) (x : Work) (q : Requery) (qs : List Requery) (vs vs' : List FlipWalk) (rows : List Row)
    (gate : SnapshotGate) (saw : RowEvent → Bool) (h : w.walks = vs ++ ⟨x,q :: qs,some none⟩ :: vs')
    (hgate : S.site.Tells gate saw) (hsaw : S.site.Snapshot w.processed w.committed saw)
    (hrows : S.site.Reads q saw rows) :
    Step w { w with walks := vs ++ ⟨x,q :: qs,some (some (rows,gate))⟩ :: vs' }
  | fail (w : NodeWorld D) (x : Work) (q : Requery) (qs : List Requery) (vs vs' : List FlipWalk)
    (h : w.walks = vs ++ ⟨x,q :: qs,some none⟩ :: vs') : Step w { w with
      tier := w.tier.endNodeQueryback S.sig
      work := x :: w.work
      walks := vs ++ vs' }
  | land (w : NodeWorld D) (x : Work) (q : Requery) (qs : List Requery) (vs vs' : List FlipWalk) (rows : List Row)
    (gate : SnapshotGate) (work : List Work) (h : w.walks = vs ++ ⟨x,q :: qs,some (some (rows,gate))⟩ :: vs')
    (hkept : Work.Covers S.node.pred S.equals w.work work)
    (hflips : HandsOn (w.tier.queryBack S.ts S.sig rows gate).2 work) : Step w { w with
      tier := (w.tier.queryBack S.ts S.sig rows gate).1.endNodeQueryback S.sig
      work := work
      walks := vs ++ ⟨x,qs,none⟩ :: vs' }
  | done (w : NodeWorld D) (x : Work) (vs vs' : List FlipWalk) (h : w.walks = vs ++ ⟨x,[],none⟩ :: vs') :
    Step w { w with walks := vs ++ vs' }

end NodeSite

namespace NodeWorld
variable {D : Dbsp}

/-- The view that the node is, with what it records and contributes. -/
def view (w : NodeWorld D) (recent : String → Option CommitStamp) (shown : String → Option Value) : World Value :=
  ⟨w.committed,w.processed,w.tier.sets,w.work,w.walks,recent,shown⟩

end NodeWorld

namespace NodeTier
variable {D : Dbsp}

/-- What a node counts and records is neither in the dictionary nor in the sets. -/
lemma keeps_queryback (T : NodeTier D) (sig : SubquerySig) :
    ((T.beginNodeQueryback sig).pkDict = T.pkDict ∧ (T.beginNodeQueryback sig).sets = T.sets) ∧
    (T.endNodeQueryback sig).pkDict = T.pkDict ∧ (T.endNodeQueryback sig).sets = T.sets := by
  obtain ⟨hframe,-,hdict⟩ := frame_editNode T sig
    (f := fun n => { n with inflightQuerybacks := n.inflightQuerybacks+1 }) fun _ => ⟨rfl,rfl⟩
  obtain ⟨hframe',-,hdict'⟩ := frame_editNode T sig (f := fun n => { n with
    inflightQuerybacks := n.inflightQuerybacks-1
    recent := if n.inflightQuerybacks-1 = 0 then .empty else n.recent }) fun _ => ⟨rfl,rfl⟩
  exact ⟨⟨hdict,hframe.sets⟩,hdict',hframe'.sets⟩

/-- A node that was just collected contributes nothing. -/
lemma sets_collectNode {T : NodeTier D} (h : T.Sound) (node : SubqueryNode) (g : TemplateGroup) (v : Value) :
    (T.collectNode node g).sets node.sig v = false := by
  have hfixed : (T.collectNode node g).fixed node.sig = some (node,T.nextNodeId) :=
    congrArg (Option.map fun n : LiveNode => (n.toSubqueryNode,n.nodeId)) (AssocMap.get?_insert_self ..)
  rw [sets_eq,hfixed,← Bool.not_eq_true]
  intro hv
  obtain ⟨id,u,hu,-⟩ := (h.circuit.contains_iff T.nextNodeId v).mp hv
  -- what the circuit holds is of a node that was there before
  obtain ⟨sig,node',hnode⟩ := h.owned ⟨T.nextNodeId,id⟩ (Option.ne_none_iff_exists'.mpr ⟨u,hu⟩)
  exact absurd (h.fresh sig node' _ hnode) (Nat.lt_irrefl _)

end NodeTier

namespace NodeSite
variable {D : Dbsp} {S : NodeSite} {w w' : NodeWorld D} {recent : String → Option CommitStamp}
  {shown : String → Option Value}

/-- A step keeps the node where it is, and the dictionary grows. -/
lemma Step.hosts (hstep : S.Step w w') (h : (⟨w.tier,[]⟩ : Draft D).Hosts S.ts S.sig S.node) :
    (⟨w'.tier,[]⟩ : Draft D).Hosts S.ts S.sig S.node ∧ w.tier.pkDict.len ≤ w'.tier.pkDict.len := by
  cases hstep with
  | delta e work =>
    obtain ⟨hhosts,hgrows⟩ := NodeTier.hosts_onTableDelta h e.delta e.stamp
    exact ⟨hhosts,hgrows.len⟩
  | others tier work hstep =>
    have halone := hstep.alone h
    exact ⟨halone.hosts,halone.grows.len⟩
  | begin x q qs vs vs' hw =>
    refine ⟨NodeTier.hosts_editNode h S.sig fun _ => ⟨rfl,rfl⟩,?_⟩
    rw [(w.tier.keeps_queryback S.sig).1.1]
  | fail x q qs vs vs' hw =>
    refine ⟨NodeTier.hosts_editNode h S.sig fun _ => ⟨rfl,rfl⟩,?_⟩
    rw [(w.tier.keeps_queryback S.sig).2.1]
  | land x q qs vs vs' rows gate work hw =>
    obtain ⟨hhosts,hgrows⟩ := NodeTier.hosts_queryBack h rows gate
    refine ⟨NodeTier.hosts_editNode hhosts S.sig fun _ => ⟨rfl,rfl⟩,?_⟩
    rw [(NodeTier.keeps_queryback _ S.sig).2.1]
    exact hgrows.len
  | _ => exact ⟨h,Nat.le_refl _⟩

/-- The node of a run: it records and contributes what its view does. -/
structure Shows (S : NodeSite) (w : NodeWorld D) (recent : String → Option CommitStamp)
    (shown : String → Option Value) : Prop where
  hosts : (⟨w.tier,[]⟩ : Draft D).Hosts S.ts S.sig S.node
  seen : w.tier.Seen S.ts S.sig S.node S.gate (w.view recent shown).inflight recent shown

/-- What a change of the table does to the node is a step of its view. -/
lemma Shows.onTableDelta (h : S.Shows w recent shown) (hv : S.site.Valid) {e : RowEvent}
    (hlt : w.processed < w.committed) (he : S.log[w.processed]? = some e)
    (hlen : (w.tier.onTableDelta S.ts e.delta e.stamp).1.pkDict.len ≤ 2^32) : ∃ recent' shown',
    (w.tier.onTableDelta S.ts e.delta e.stamp).1.Seen S.ts S.sig S.node S.gate (w.view recent shown).inflight
      recent' shown' ∧
    S.site.Step (w.view recent shown) (NodeWorld.view { w with processed := w.processed+1 } recent' shown') := by
  obtain ⟨hlog,he'⟩ := List.getElem?_eq_some_iff.mp he
  have hfits : e.Fits S.ts fun k => rowAt S.ts S.base k (S.log.take w.processed) :=
    hv.log (S.log.take w.processed) e (S.log.drop (w.processed+1))
      (by rw [← he',← List.drop_eq_getElem_cons hlog,List.take_append_drop]; rfl)
  obtain ⟨hunseen,hseen⟩ := h.seen.onTableDelta h.hosts.sound hfits hlen
  cases hsees : S.gate.sees e with
  | false =>
    refine ⟨_,_,?_,.decide (w.view recent shown) e hlt he hsees⟩
    rw [← @Site.shownAfter_live _ S.site (w.view recent shown) e _ hfits,
      ← @Site.recentAfter_live _ S.site e _ hfits]
    exact hunseen hsees
  | true => exact ⟨_,_,hseen hsees,.pass (w.view recent shown) e hlt he (.inl hsees)⟩

/-- What a query-back asserts is what its rows show in the view. -/
lemma landed_view (rows : List Row) (gate : SnapshotGate) :
    shownAfter S.ts (S.node.takes w.tier.sets.eval) (.queryBack gate) (rows.map (·,true)) recent shown =
      S.site.landed (w.view recent shown) rows gate :=
  @Site.shownAfter_queryBack _ S.site (w.view recent shown) rows gate

/-- Each step of the node is some steps of its view. -/
theorem Shows.step (h : S.Shows w recent shown) (hv : S.site.Valid) {slack : List (Option Work)}
    (hgood : S.site.Good slack (w.view recent shown)) (hstep : S.Step w w') (hlen : w'.tier.pkDict.len ≤ 2^32) :
    ∃ recent' shown', S.Shows w' recent' shown' ∧
      Relation.ReflTransGen S.site.Step (w.view recent shown) (w'.view recent' shown') := by
  have hhosts := (hstep.hosts h.hosts).1
  have hsound : w.tier.Sound := h.hosts.sound
  cases hstep with
  | commit hlt => exact ⟨_,_,⟨h.hosts,h.seen⟩,.single (.commit _ hlt)⟩
  | delta e work hlt he hkept hflips =>
    obtain ⟨recent',shown',hseen,hstep⟩ := h.onTableDelta hv hlt he hlen
    refine ⟨recent',shown',⟨hhosts,hseen⟩,.head hstep (.single ?_)⟩
    exact .turn _ _ work hkept ((hsound.onTableDelta _ e.delta e.stamp).2.flips hflips)
  | others tier work hstep hkept hflips =>
    exact ⟨recent,shown,⟨hhosts,h.seen.alone (hstep.alone h.hosts) hlen⟩,
      .single (.turn (w.view recent shown) _ work hkept hflips)⟩
  | take x ws ws' hw =>
    refine ⟨_,_,⟨h.hosts,?_⟩,.single (.take (w.view recent shown) x ws ws' hw)⟩
    have hcount : (w.walks ++ [(⟨x,x.requeries S.node.pred,none⟩ : FlipWalk)]).filterMap FlipWalk.reading =
        w.walks.filterMap FlipWalk.reading := by
      rw [FlipWalk.reading_idle,List.append_nil]
    rw [World.inflight,NodeWorld.view]
    dsimp only
    rw [hcount]
    exact h.seen
  | begin x q qs vs vs' hw =>
    have hseen := h.seen.begin
    rw [World.inflight,NodeWorld.view,hw,FlipWalk.reading_idle] at hseen
    refine ⟨recent,shown,⟨hhosts,?_⟩,.single ?_⟩
    · rw [World.inflight,NodeWorld.view,FlipWalk.reading_begun]
      exact hseen
    · rw [NodeWorld.view,NodeWorld.view,(w.tier.keeps_queryback S.sig).1.2]
      exact .begin (w.view recent shown) x q qs vs vs' hw
  | read x q qs vs vs' rows gate saw hw hgate hsaw hrows =>
    refine ⟨_,_,⟨h.hosts,?_⟩,
      .single (.read (w.view recent shown) x q qs vs vs' rows gate saw hw hgate hsaw hrows)⟩
    have hseen := h.seen
    rw [World.inflight,NodeWorld.view,hw,FlipWalk.reading_begun] at hseen
    rw [World.inflight,NodeWorld.view,FlipWalk.reading_begun]
    exact hseen
  | fail x q qs vs vs' hw =>
    have hseen := h.seen.done
    rw [World.inflight,NodeWorld.view,hw,FlipWalk.reading_begun,Nat.add_sub_cancel] at hseen
    refine ⟨_,shown,⟨hhosts,hseen⟩,.single ?_⟩
    rw [NodeWorld.view,NodeWorld.view,(w.tier.keeps_queryback S.sig).2.2]
    exact .fail (w.view recent shown) x q qs vs vs' hw
  | land x q qs vs vs' rows gate work hw hkept hflips =>
    have hmem : (⟨x,q :: qs,some (some (rows,gate))⟩ : FlipWalk) ∈ w.walks :=
      hw ▸ List.mem_append_right _ List.mem_cons_self
    have hreads := ((hgood.walks _ hmem).read rows gate rfl).2 q rfl
    have hrows : ∀ r ∈ rows, S.ts.IsRow r := fun r hr =>
      (hv.rowAt_isRow S.site List.filter_sublist (hreads.row r hr)).1
    rw [(NodeTier.keeps_queryback _ S.sig).2.1] at hlen
    have hseen := (h.seen.queryBack hsound hrows hreads.nodup gate hlen).done
    rw [landed_view] at hseen
    rw [World.inflight,NodeWorld.view,hw,FlipWalk.reading_begun,Nat.add_sub_cancel,
      ← @FlipWalk.reading_idle vs vs' x qs] at hseen
    refine ⟨_,_,⟨hhosts,hseen⟩,.head (.land (w.view recent shown) x q qs vs vs' rows gate hw) (.single ?_)⟩
    rw [NodeWorld.view,NodeWorld.view,(NodeTier.keeps_queryback _ S.sig).2.2]
    exact .turn _ _ work hkept ((hsound.queryBack S.sig rows gate).2.flips hflips)
  | done x vs vs' hw =>
    refine ⟨_,_,⟨h.hosts,?_⟩,.single (.done (w.view recent shown) x vs vs' hw)⟩
    have hseen := h.seen
    rw [World.inflight,NodeWorld.view,hw,FlipWalk.reading_idle] at hseen
    exact hseen

/-- A node that was just seeded: its set was empty and no change had come since it was collected, and its seed returned
the rows of a snapshot that match as the inner sets stood in some state. The snapshot sees what is processed, and its
gate tells of each commit what it saw. -/
structure Start (S : NodeSite) (T : NodeTier D) (rows : List Row) (sets : NodeSets) (saw : RowEvent → Bool)
    (w : NodeWorld D) : Prop where
  reachable : T.Reachable
  serves : ∃ g, T.Serves S.ts S.node g
  collected : ∃ id, T.nodes.get? S.sig = some ⟨S.node,id,.passthrough,some [],.empty,0⟩
  bare : ∀ v, T.sets S.sig v = false
  tier : w.tier = (T.installSeed S.ts S.sig rows S.gate).1
  nodup : (rows.map S.ts.name).Nodup
  rows : ∀ r, r ∈ rows ↔
    rowAt S.ts S.base (S.ts.name r) (S.log.filter saw) = some r ∧ S.node.pred.matchesCtx r sets.eval = true
  gate : S.site.Tells S.gate saw
  le : w.processed ≤ w.committed
  past : ∀ e ∈ S.log.take w.processed, saw e = true
  future : ∀ e ∈ S.log.drop w.committed, saw e = false
  closed : S.site.Closed saw
  walks : w.walks = []

section
variable {T : NodeTier D} {rows : List Row} {sets : NodeSets} {saw : RowEvent → Bool}

/-- The node is there when it is seeded. -/
lemma Start.hosts (h : S.Start T rows sets saw w) : (⟨w.tier,[]⟩ : Draft D).Hosts S.ts S.sig S.node := by
  obtain ⟨id,hn⟩ := h.collected
  have hstart : (⟨T,[]⟩ : Draft D).Hosts S.ts S.sig S.node :=
    ⟨h.reachable.sound,h.serves,⟨id,NodeTier.fixed_of_get hn⟩⟩
  have hgate : (⟨T.editNode S.sig ({ · with gate := S.gate }),[]⟩ : Draft D).Hosts S.ts S.sig S.node :=
    NodeTier.hosts_editNode hstart S.sig fun _ => ⟨rfl,rfl⟩
  have hrows := (NodeTier.hosts_applyNodeEvals hgate S.sig
    (rows.map fun r => (S.ts.pkOf r,some (r.cell S.node.projCol)))).1
  rw [h.tier,NodeTier.installSeed_eq hn]
  exact NodeTier.hosts_editNode hrows S.sig fun _ => ⟨rfl,rfl⟩

/-- A run starts well. -/
lemma Start.shows (h : S.Start T rows sets saw w) (hv : S.site.Valid) (hlen : w.tier.pkDict.len ≤ 2^32) :
    ∃ recent shown, S.Shows w recent shown ∧ S.site.Start sets (w.view recent shown) := by
  have hsound : T.Sound := h.reachable.sound
  have hrows : ∀ r ∈ rows, S.ts.IsRow r := fun r hr =>
    (hv.rowAt_isRow S.site List.filter_sublist ((h.rows r).mp hr).1).1
  obtain ⟨id,hn⟩ := h.collected
  have hlen' := hlen
  rw [h.tier] at hlen'
  obtain ⟨hseen,hin,hout⟩ := hsound.installSeed_at hn h.serves hrows h.nodup hlen'
  rw [← h.tier] at hseen hin hout
  refine ⟨fun _ => none,w.tier.contribution S.sig,⟨?_,?_⟩,
    ⟨h.le,?_,?_,h.gate.closed h.closed,h.walks,fun _ => rfl,fun k => ?_⟩⟩
  · exact h.hosts
  · rw [World.inflight,NodeWorld.view,h.walks]
    exact hseen
  · exact fun e he => (h.gate e (List.mem_of_mem_take he)).trans (h.past e he)
  · exact fun e he => (h.gate e (List.mem_of_mem_drop he)).trans (h.future e he)
  · change w.tier.contribution S.sig k = (rowAt S.ts S.base k (S.site.log.filter S.gate.sees)).bind (S.site.view sets)
    rw [h.gate.filter]
    change w.tier.contribution S.sig k = (rowAt S.ts S.base k (S.log.filter saw)).bind (S.site.view sets)
    by_cases hk : k ∈ rows.map S.ts.name
    · obtain ⟨r,hr,rfl⟩ := List.mem_map.mp hk
      obtain ⟨hat,hmatch⟩ := (h.rows r).mp hr
      rw [hin r hr,hat,Option.bind_some]
      exact (if_pos hmatch).symm
    · have hnone : T.contribution S.sig k = none := by
        by_contra hne
        obtain ⟨v,hc⟩ := Option.ne_none_iff_exists'.mp hne
        have hmem := NodeTier.mem_sets_of_contribution hsound hc
        rw [h.bare v] at hmem
        cases hmem
      rw [hout k hk,hnone]
      cases hat : rowAt S.ts S.base k (S.log.filter saw) with
      | none => rfl
      | some r =>
        -- a row that matches would be among those of the seed
        obtain ⟨-,rfl⟩ := hv.rowAt_isRow S.site List.filter_sublist hat
        refine (if_neg fun hmatch => hk ?_).symm
        exact List.mem_map.mpr ⟨r,(h.rows r).mpr ⟨hat,hmatch⟩,rfl⟩

/-- At any time of a run the node contributes what a view shows that ran well. -/
lemma Start.run (h : S.Start T rows sets saw w) (hv : S.site.Valid) {slack : List (Option Work)}
    (hfinds : none ∈ slack ∨ S.node.pred.Finds S.equals ∧ Flips sets w.tier.sets w.work)
    (hrun : Relation.ReflTransGen S.Step w w') :
    (⟨w'.tier,[]⟩ : Draft D).Hosts S.ts S.sig S.node ∧ (w'.tier.pkDict.len ≤ 2^32 →
      ∃ recent shown, S.Shows w' recent shown ∧ S.site.Good slack (w'.view recent shown)) := by
  induction hrun with
  | refl =>
    refine ⟨h.hosts,fun hlen => ?_⟩
    obtain ⟨recent,shown,hshows,hstart⟩ := h.shows hv hlen
    exact ⟨recent,shown,hshows,hstart.good hfinds⟩
  | tail _ hstep ih =>
    obtain ⟨hhosts,hlen⟩ := hstep.hosts ih.1
    refine ⟨hhosts,fun hlen' => ?_⟩
    obtain ⟨recent,shown,hshows,hgood⟩ := ih.2 (hlen.trans hlen')
    obtain ⟨recent',shown',hshows',hrun⟩ := hshows.step hv hgood hstep hlen'
    exact ⟨recent',shown',hshows',hgood.run hv (hfinds.imp_right And.left) hrun⟩

/-- Whatever the order in which commits came in, other nodes changed and query-backs were begun, read and reconciled:
once nothing is left to process, to walk or to reconcile, a value is in the node's set exactly if the table has a row
with it that matches the node's query as the inner sets stand. The columns of the query's edges find what the engine
counts as equal, and what the sets have come to since the seed is among the work. -/
theorem Start.set_exact (h : S.Start T rows sets saw w) (hv : S.site.Valid) (hfinds : S.node.pred.Finds S.equals)
    (hflips : Flips sets w.tier.sets w.work) (hrun : Relation.ReflTransGen S.Step w w')
    (hlen : w'.tier.pkDict.len ≤ 2^32) (hprocessed : w'.processed = w'.committed) (hwork : w'.work = [])
    (hwalks : w'.walks = []) (v : Value) : w'.tier.sets S.sig v = true ↔ ∃ k r,
      rowAt S.ts S.base k (S.log.take w'.committed) = some r ∧ S.node.pred.matchesCtx r w'.tier.sets.eval = true ∧
      (r.cell S.node.projCol).eqv v = true := by
  obtain ⟨hhosts,hgood⟩ := h.run hv (.inr ⟨hfinds,hflips⟩) hrun
  have hsound : w'.tier.Sound := hhosts.sound
  obtain ⟨recent,shown,hshows,hgood⟩ := hgood hlen
  have hview : ∀ k, w'.tier.contribution S.sig k =
      (rowAt S.ts S.base k (S.log.take w'.committed)).bind (S.site.view w'.tier.sets) := fun k =>
    (hshows.seen.shown k).trans (hgood.shown_of_quiet hprocessed hwork hwalks k)
  rw [hsound.mem_sets hlen]
  refine exists_congr fun k => ?_
  rw [hview]
  constructor
  · rintro ⟨x,hx,hxv⟩
    obtain ⟨r,hat,hx⟩ := Option.bind_eq_some_iff.mp hx
    rw [Site.view] at hx
    split_ifs at hx with hmatch
    obtain rfl := Option.some.inj hx
    exact ⟨r,hat,hmatch,hxv⟩
  · rintro ⟨r,hat,hmatch,hxv⟩
    rw [hat,Option.bind_some]
    exact ⟨_,if_pos hmatch,hxv⟩

/-- At no time is a value in the node's set that is older than what was processed: some row had it after some commit
since then. Nothing is said of what the reads find, nor of the flips that there have been. -/
theorem Start.set_fresh (h : S.Start T rows sets saw w) (hv : S.site.Valid) (hrun : Relation.ReflTransGen S.Step w w')
    (hlen : w'.tier.pkDict.len ≤ 2^32) (v : Value) (hmem : w'.tier.sets S.sig v = true) :
    ∃ k n r, w'.processed ≤ n ∧ n ≤ w'.committed ∧ rowAt S.ts S.base k (S.log.take n) = some r ∧
      (r.cell S.node.projCol).eqv v = true := by
  obtain ⟨hhosts,hgood⟩ := h.run hv (.inl (List.mem_singleton_self none)) hrun
  have hsound : w'.tier.Sound := hhosts.sound
  obtain ⟨recent,shown,hshows,hgood⟩ := hgood hlen
  obtain ⟨k,x,hx,hxv⟩ := (hsound.mem_sets hlen S.sig v).mp hmem
  rw [hshows.seen.shown] at hx
  obtain ⟨n,r,hpn,hnc,hat,rfl⟩ := hgood.shown_of_moment hx
  exact ⟨k,n,r,hpn,hnc,hat,hxv⟩

end

/-- The tasks, and the projects whose levels the tasks are asked for. -/
def sampleTasks : TableSchema := { TableSchema.sample with table := "tasks" }

def sampleProjects : TableSchema := { TableSchema.sample with table := "projects" }

/-- A task comes with a level of no project. -/
def sampleArrival : RowEvent := ⟨⟨none,some ⟨[.int 7,.int 5]⟩⟩,(5,some 15),none⟩

/-- The task moves to the level of a project, which a read under way does not see. -/
def sampleMove : RowEvent := ⟨⟨some ⟨[.int 7,.int 5]⟩,some ⟨[.int 7,.int 3]⟩⟩,(6,some 25),none⟩

def sample : NodeSite :=
  ⟨sampleTasks,.meant,fun _ => none,[sampleArrival,sampleMove],"levels",
    ⟨"levels","tasks",1,.inSubquery 1 "projects" false,"t",⟨[]⟩⟩,⟨0,10,10,[]⟩⟩

/-- The tier that has the levels of the projects, one so far. -/
def sampleProjectLevels : NodeTier Dbsp.whole :=
  ((NodeTier.empty.collectNode ⟨"projects","projects",1,.matchAll,"p",⟨[]⟩⟩
    ⟨"projects",1,.matchAll,[],.empty⟩).installSeed sampleProjects "projects" [⟨[.int 1,.int 3]⟩] ⟨0,10,10,[]⟩).1

/-- The tier that collected the node. -/
def sampleTier : NodeTier Dbsp.whole :=
  sampleProjectLevels.collectNode sample.node ⟨"tasks",1,.inSubquery 1 "projects" false,[],.empty⟩

def sampleWorld : NodeWorld Dbsp.whole := ⟨0,0,(sampleTier.installSeed sample.ts "levels" [] sample.gate).1,[],[]⟩

/-- The task has come. -/
def sampleArrived : NodeTier Dbsp.whole :=
  (sampleWorld.tier.onTableDelta sample.ts sampleArrival.delta sampleArrival.stamp).1

/-- A project of its level has come. -/
def sampleProjectCame : NodeTier Dbsp.whole :=
  (sampleArrived.onTableDelta sampleProjects [(⟨[.int 2,.int 5]⟩,1)] (4,some 14)).1

/-- The task has moved under a read. -/
def sampleMoved : NodeTier Dbsp.whole :=
  ((sampleProjectCame.beginNodeQueryback "levels").onTableDelta sample.ts sampleMove.delta sampleMove.stamp).1

/-- What was read has landed. -/
def sampleLanded : NodeTier Dbsp.whole :=
  (sampleMoved.queryBack sample.ts "levels" [⟨[.int 7,.int 5]⟩] ShapeSite.sampleGate).1.endNodeQueryback "levels"

lemma isRow_sample (level : ℤ) : sample.ts.IsRow ⟨[.int 7,.int level]⟩ where
  width := rfl
  pk := by
    intro i hi c hc
    obtain rfl := List.mem_singleton.mp hi
    obtain rfl := Option.some.inj hc
    trivial

lemma valid_sample : sample.site.Valid where
  base := nofun
  log pre e post h := by
    have harrival : sampleArrival.Fits sample.ts fun _ => none :=
      ⟨nofun,fun n hn => Option.some.inj hn ▸ isRow_sample 5,nofun,nofun,fun _ _ _ => rfl⟩
    have hmove : sampleMove.Fits sample.ts fun k => rowAt sample.ts sample.base k [sampleArrival] := by
      refine ⟨fun o ho => Option.some.inj ho ▸ isRow_sample 5,fun n hn => Option.some.inj hn ▸ isRow_sample 3,?_,?_,?_⟩
      · intro o ho n hn
        obtain rfl := Option.some.inj ho
        obtain rfl := Option.some.inj hn
        decide
      · intro o ho
        obtain rfl := Option.some.inj ho
        decide +kernel
      · intro n hn hfree
        obtain rfl := Option.some.inj hn
        exact absurd (by decide +kernel) (hfree _ rfl)
    rcases pre with _ | ⟨d,_ | ⟨d',pre⟩⟩
    · obtain ⟨rfl,-⟩ := List.cons.inj h
      exact harrival
    · obtain ⟨rfl,hrest⟩ := List.cons.inj h
      obtain ⟨rfl,-⟩ := List.cons.inj hrest
      exact hmove
    · simp [site,sample] at h

/-- What a snapshot saw that was taken between the two commits. -/
def sampleSaw (e : RowEvent) : Bool := decide (e.stamp.1 = 5)

lemma reachable_sampleProjectLevels : sampleProjectLevels.Reachable :=
  .step (.step .start (.collect _ _ _ rfl nofun)) (.seed _ _ _ _ _)

lemma reachable_sampleTier : sampleTier.Reachable := by
  have hnone : (sampleProjectLevels.group "t").isNone = true := by decide +kernel
  refine .step reachable_sampleProjectLevels (.collect _ _ _ (by decide +kernel) fun g hg => ?_)
  change sampleProjectLevels.group "t" = some g at hg
  rw [hg] at hnone
  cases hnone

lemma start_sample : sample.Start sampleTier [] sampleWorld.tier.sets (fun _ => false) sampleWorld where
  reachable := reachable_sampleTier
  serves := by
    have hgroup : sampleTier.group "t" = some _ := (NodeTier.group_collectNode ..).trans (if_pos rfl)
    exact ⟨_,hgroup,rfl,rfl,fun row ev => ⟨fun h => ⟨h,rfl⟩,And.left⟩⟩
  collected := ⟨2,AssocMap.get?_insert_self ..⟩
  bare v := NodeTier.sets_collectNode reachable_sampleProjectLevels.sound _ _ v
  tier := rfl
  nodup := .nil
  rows r := by
    refine iff_of_false (List.not_mem_nil) ?_
    rintro ⟨hat,-⟩
    have hnil : sample.log.filter (fun _ => false) = [] := rfl
    rw [hnil] at hat
    cases hat
  gate e he := by
    revert e
    decide
  le := Nat.le_refl 0
  past := nofun
  future _ _ := rfl
  closed := .cons (fun _ _ _ _ _ h => h) (List.pairwise_singleton _ _)
  walks := rfl

/-- What calls give out that concern one value of a node. -/
lemma handsOn_flip {flips : List (SubquerySig × Flip)} {sig : SubquerySig} {v : Value}
    (h : ∀ f ∈ flips, f.1 = sig ∧ f.2.value = v) : HandsOn flips [.flip sig v] := by
  intro f hf
  rw [(h f hf).1,(h f hf).2]
  exact List.mem_singleton_self _

lemma snapshot_sample : sample.site.Snapshot 1 1 sampleSaw where
  past e he := by
    obtain rfl := List.mem_singleton.mp he
    rfl
  seed e he hs := by
    revert e
    decide
  future e he := by
    obtain rfl := List.mem_singleton.mp he
    rfl
  closed := .cons (by
    intro e he k _ _ hs
    obtain rfl := List.mem_singleton.mp he
    cases hs) (List.pairwise_singleton _ _)

lemma reads_sample : sample.site.Reads (.byCol 1 (.int 5)) sampleSaw [⟨[.int 7,.int 5]⟩] := by
  refine ⟨fun r hr => ?_,fun r hr _ => ?_,List.nodup_singleton _⟩
  · obtain rfl := List.mem_singleton.mp hr
    decide +kernel
  · exact List.mem_singleton.mpr (RowEvent.eq_of_rowAt_insert hr)

/-- The level of the task becomes that of a project, the task is read for it and moves before the read lands. -/
lemma run_sample : Relation.ReflTransGen sample.Step sampleWorld ⟨2,2,sampleLanded,[],[]⟩ := by
  have harrived : HandsOn (sampleWorld.tier.onTableDelta sample.ts sampleArrival.delta sampleArrival.stamp).2 [] :=
    fun f hf => absurd hf (by
      have hnil : ∀ f ∈ (sampleWorld.tier.onTableDelta sample.ts sampleArrival.delta sampleArrival.stamp).2,
        False := by decide +kernel
      exact hnil f)
  have hcame : HandsOn (sampleArrived.onTableDelta sampleProjects [(⟨[.int 2,.int 5]⟩,1)] (4,some 14)).2
      [.flip "projects" (.int 5)] := handsOn_flip (by decide +kernel)
  have hmoved : HandsOn ((sampleProjectCame.beginNodeQueryback "levels").onTableDelta sample.ts sampleMove.delta
      sampleMove.stamp).2 [.flip "levels" (.int 3)] := handsOn_flip (by decide +kernel)
  have hlanded : HandsOn (sampleMoved.queryBack sample.ts "levels" [⟨[.int 7,.int 5]⟩] ShapeSite.sampleGate).2
      [.flip "levels" (.int 3)] := handsOn_flip (by decide +kernel)
  have hsound : sampleArrived.Sound :=
    (NodeTier.Sound.onTableDelta sample.ts start_sample.hosts.sound sampleArrival.delta sampleArrival.stamp).1
  have hflips := (hsound.onTableDelta sampleProjects [(⟨[.int 2,.int 5]⟩,1)] (4,some 14)).2.flips hcame
  have htells : sample.site.Tells ShapeSite.sampleGate sampleSaw := by
    intro e he
    revert e
    decide
  refine .head (.commit _ (by decide)) (.head (.delta _ sampleArrival [] (by decide) rfl (Work.covers_append [] [])
    harrived) ?_)
  refine .head (.others _ _ [.flip "projects" (.int 5)] (.delta _ sampleProjects _ _ (by decide))
    (Work.covers_append [] _) hflips) ?_
  refine .head (.take _ (.flip "projects" (.int 5)) [] [] rfl) (.head (.begin _ _ (.byCol 1 (.int 5)) [] [] [] rfl) ?_)
  refine .head (.read _ _ _ _ [] [] _ ShapeSite.sampleGate _ rfl htells snapshot_sample reads_sample) ?_
  refine .head (.commit _ (by decide)) (.head (.delta _ sampleMove [.flip "levels" (.int 3)] (by decide) rfl
    (Work.covers_append [] _) hmoved) ?_)
  refine .head (.land _ _ _ _ [] [] _ ShapeSite.sampleGate [.flip "levels" (.int 3)] rfl (Work.covers_append _ [])
    hlanded) ?_
  refine .head (.done _ _ [] [] rfl) (.head (.take _ (.flip "levels" (.int 3)) [] [] rfl) ?_)
  exact .head (.done _ _ [] [] rfl) .refl

/-- The task is there with the level that it moved to, and not with the one that was read. -/
theorem sample_set_exact : sampleLanded.sets "levels" (.int 3) = true ∧ sampleLanded.sets "levels" (.int 5) ≠ true := by
  have hexact := start_sample.set_exact valid_sample (fun l _ => ColumnEquality.finds_meant l.col) (.refl _ _)
    run_sample (by decide +kernel) rfl rfl rfl
  refine ⟨(hexact (.int 3)).mpr ⟨"7",⟨[.int 7,.int 3]⟩,by decide +kernel,by decide +kernel,rfl⟩,fun hv => ?_⟩
  have hnot : sampleLanded.sets "levels" (.int 5) = false := by decide +kernel
  rw [hnot] at hv
  cases hv

theorem sample_set_fresh : ∃ k n r, 2 ≤ n ∧ n ≤ 2 ∧ rowAt sample.ts sample.base k (sample.log.take n) = some r ∧
    (r.cell 1).eqv (.int 3) = true :=
  start_sample.set_fresh valid_sample run_sample (by decide +kernel) (.int 3) (by decide +kernel)

end NodeSite
end ElectricCircuits
