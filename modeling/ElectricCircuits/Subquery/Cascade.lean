import ElectricCircuits.Subquery.NodeSite

/-! A shape over one table and the node of its subquery over another, each with work of its own: the flips of the node's
set are work of the shape. When nothing is left to do at either, the shape's stream answers the query. -/
namespace ElectricCircuits

/-- A subquery and a shape that asks it. -/
structure Cascade where
  inner : NodeSite
  outer : ShapeSite

/-- Where a run of both is. -/
structure CascadeWorld (D : Dbsp) where
  inner : NodeWorld D
  outer : ShapeWorld

namespace Cascade
variable {D : Dbsp} (C : Cascade)

/-- What is called of the node tier turns the sets for the shape, and its flips are work of the shape. -/
inductive Step : CascadeWorld D → CascadeWorld D → Prop
  | inner (w : CascadeWorld D) (inner : NodeWorld D) (work : List Work) (hstep : C.inner.Step w.inner inner)
    (hkept : Work.Covers C.outer.shape.pred C.outer.equals w.outer.work work)
    (hflips : Flips w.inner.tier.sets inner.tier.sets work) :
    Step w ⟨inner,{ w.outer with sets := inner.tier.sets, work := work }⟩
  | outer (w : CascadeWorld D) (outer : ShapeWorld) (hstep : C.outer.Step w.outer outer)
    (hsets : outer.sets = w.outer.sets) : Step w ⟨w.inner,outer⟩

/-- Both were just filled, each as the inner sets stood in some state, since which their flips are among the work. -/
structure Start (T : NodeTier D) (rows : List Row) (seeded : NodeSets) (O : OuterTier) (s : SubqueryShape)
    (chunks : List (List Row)) (backfilled : NodeSets) (saw saw' : RowEvent → Bool) (w : CascadeWorld D) : Prop where
  inner : C.inner.Start T rows seeded saw w.inner
  outer : C.outer.Start O s chunks backfilled saw' w.outer
  sets : w.outer.sets = w.inner.tier.sets
  seeded : Flips seeded w.inner.tier.sets w.inner.work
  backfilled : Flips backfilled w.outer.sets w.outer.work

variable {C} {w w' : CascadeWorld D}

/-- Each of the two takes part in the run, and the shape always has the sets of the tier. -/
lemma run_parts (hrun : Relation.ReflTransGen C.Step w w') (hsets : w.outer.sets = w.inner.tier.sets) :
    Relation.ReflTransGen C.inner.Step w.inner w'.inner ∧ Relation.ReflTransGen C.outer.Step w.outer w'.outer ∧
      w'.outer.sets = w'.inner.tier.sets := by
  induction hrun with
  | refl => exact ⟨.refl,.refl,hsets⟩
  | tail _ hstep ih =>
    obtain ⟨hinner,houter,hsets⟩ := ih
    cases hstep with
    | inner inner work hstep hkept hflips =>
      rw [← hsets] at hflips
      exact ⟨hinner.tail hstep,houter.tail (.turn _ _ work hkept hflips),rfl⟩
    | outer outer hstep hkeep => exact ⟨hinner,houter.tail hstep,hkeep.trans hsets⟩

section
variable {T : NodeTier D} {rows : List Row} {seeded : NodeSets} {O : OuterTier} {s : SubqueryShape}
  {chunks : List (List Row)} {backfilled : NodeSets} {saw saw' : RowEvent → Bool}

/-- However the two are interleaved: once nothing is left to do, the stream of a shape that asks one subquery shows of
each key the row of its table for which the WHERE holds, where `IN` is read against the rows of the inner table that
match the subquery. The columns of the edges find what the engine counts as equal. -/
theorem Start.stream_answers (h : C.Start T rows seeded O s chunks backfilled saw saw' w)
    (hinner : C.inner.site.Valid) (houter : C.outer.site.Valid)
    (hfinds : C.inner.node.pred.Finds C.inner.equals) (hfinds' : s.pred.Finds C.outer.equals)
    (hrun : Relation.ReflTransGen C.Step w w')
    (hlen : w'.inner.tier.pkDict.len ≤ 2^32) (hlen' : w'.outer.outer.pkDict.len ≤ 2^32)
    (hprocessed : w'.inner.processed = w'.inner.committed) (hprocessed' : w'.outer.processed = w'.outer.committed)
    (hwork : w'.inner.work = [] ∧ w'.inner.walks = []) (hwork' : w'.outer.work = [] ∧ w'.outer.walks = [])
    (hleaves : ∀ l ∈ s.pred.collectInLeaves, l.sig = C.inner.sig) (answer : NodeSets)
    (hanswer : ∀ v, answer C.inner.sig v = true ↔ ∃ k r,
      rowAt C.inner.ts C.inner.base k (C.inner.log.take w'.inner.committed) = some r ∧
      C.inner.node.pred.matchesCtx r w'.inner.tier.sets.eval = true ∧
      (r.cell C.inner.node.projCol).eqv v = true) (k : String) :
    foldStream (fun _ => none) (w'.outer.outer.stream s.streamPath) k =
      (rowAt C.outer.ts C.outer.base k (C.outer.log.take w'.outer.committed)).bind fun r =>
        if s.pred.matchesCtx r answer.eval then some (C.outer.ts.rowToJsonCols r s.outCols) else none := by
  obtain ⟨hleft,hright,hsets⟩ := run_parts hrun h.sets
  have hset := fun v => h.inner.set_exact hinner hfinds h.seeded hleft hlen hprocessed hwork.1 hwork.2 v
  rw [h.outer.converges houter hfinds' h.backfilled hright hlen' hprocessed' hwork'.1 hwork'.2 k,hsets]
  -- the set of the node is the answer of its subquery
  have hsame : ∀ v, w'.inner.tier.sets C.inner.sig v = answer C.inner.sig v := fun v => by
    rw [Bool.eq_iff_iff,hset,hanswer]
  refine congrArg _ (funext fun r => ?_)
  have heval : s.pred.evalCtx r w'.inner.tier.sets.eval = s.pred.evalCtx r answer.eval :=
    CompiledPredicate.evalCtx_of_still s.pred false fun l hl => by
      have hsig := hleaves l hl
      rw [CompiledPredicate.Still,hsig]
      exact ⟨fun _ => hsame _,fun _ => hsame _⟩
  rw [CompiledPredicate.matchesCtx,CompiledPredicate.matchesCtx,heval]

end

/-- A task comes with the level of an issue. -/
def sampleTask : RowEvent := ⟨⟨none,some ⟨[.int 1,.int 3]⟩⟩,(5,some 15),none⟩

/-- The issues whose level is that of some task. -/
def sample : Cascade :=
  ⟨⟨NodeSite.sampleTasks,.meant,fun _ => none,[sampleTask],"levels",⟨"levels","tasks",1,.matchAll,"t",⟨[]⟩⟩,
    ⟨0,10,10,[]⟩⟩,ShapeSite.sample⟩

/-- The tier that collected the node. -/
def sampleTier : NodeTier Dbsp.whole := NodeTier.empty.collectNode sample.inner.node ⟨"tasks",1,.matchAll,[],.empty⟩

def sampleStart : CascadeWorld Dbsp.whole :=
  let T := (sampleTier.installSeed sample.inner.ts "levels" [] sample.inner.gate).1
  ⟨⟨0,0,T,[],[]⟩,{ ShapeSite.sampleWorld with sets := T.sets }⟩

/-- The tier that has seen the task. -/
def sampleChanged : NodeTier Dbsp.whole :=
  (sampleStart.inner.tier.onTableDelta sample.inner.ts sampleTask.delta sampleTask.stamp).1

/-- The issue is inserted when its level is in the set, and read back for the level as well. -/
def sampleOuter : OuterTier :=
  let ev := sampleChanged.sets.eval
  let T := ShapeSite.sampleWorld.outer.onTableDelta ShapeSite.sample.ts ev false ShapeSite.sampleEvent.delta
    ShapeSite.sampleEvent.stamp ShapeSite.sampleEvent.txid
  ((T.beginQueryback "shape").queryBack ShapeSite.sample.ts ev "shape" [ShapeSite.sampleRow] ShapeSite.sampleGate
    none).endQueryback "shape"

lemma valid_sample : sample.inner.site.Valid where
  base _ _ h := by cases h
  log pre e post h := by
    obtain ⟨rfl,rfl,rfl⟩ : pre = [] ∧ e = sampleTask ∧ post = [] := by
      cases pre with
      | nil =>
        obtain ⟨he,hpost⟩ := List.cons.inj h
        exact ⟨rfl,he.symm,hpost.symm⟩
      | cons d pre => simp [NodeSite.site,sample] at h
    refine ⟨fun _ h => ?_,fun n hn => Option.some.inj hn ▸ ⟨rfl,fun i hi c hc => ?_⟩,fun _ h => ?_,fun _ h => ?_,
      fun _ _ _ => rfl⟩
    · cases h
    · obtain rfl := List.mem_singleton.mp hi
      obtain rfl := Option.some.inj hc
      trivial
    · cases h
    · cases h

lemma start_sample : sample.Start sampleTier [] sampleStart.inner.tier.sets OuterTier.empty ShapeSite.sampleShape []
    sampleStart.inner.tier.sets (fun _ => false) (fun _ => false) sampleStart where
  inner := {
    reachable := .step .start (.collect _ _ _ rfl nofun)
    serves := by
      have hgroup : sampleTier.group "t" = some _ := (NodeTier.group_collectNode ..).trans (if_pos rfl)
      exact ⟨_,hgroup,rfl,rfl,fun row ev => iff_of_true rfl ⟨rfl,rfl⟩⟩
    collected := ⟨1,AssocMap.get?_insert_self ..⟩
    bare := fun v => NodeTier.sets_collectNode NodeTier.sound_empty _ _ v
    tier := rfl
    nodup := .nil
    rows := fun r => by
      refine iff_of_false (List.not_mem_nil) ?_
      rintro ⟨hat,-⟩
      cases hat
    gate := fun e he => by
      obtain rfl := List.mem_singleton.mp he
      decide
    le := Nat.le_refl 0
    past := nofun
    future := fun _ _ => rfl
    closed := List.pairwise_singleton _ _
    walks := rfl }
  outer := {
    reachable := .start
    unused := rfl
    path := rfl
    table := rfl
    shape := rfl
    outer := rfl
    rows := fun r => by
      refine iff_of_false (List.not_mem_nil) ?_
      rintro ⟨hat,-⟩
      cases hat
    gate := ShapeSite.start_sample.gate
    le := Nat.le_refl 0
    past := nofun
    future := fun _ _ => rfl
    closed := ShapeSite.closed_sample _
    walks := rfl }
  sets := rfl
  seeded := .refl _ _
  backfilled := .refl _ _

lemma run_sample : Relation.ReflTransGen sample.Step sampleStart
    ⟨⟨1,1,sampleChanged,[],[]⟩,⟨1,1,sampleChanged.sets,sampleOuter,[],[]⟩⟩ := by
  have hsound : sampleStart.inner.tier.Sound := start_sample.inner.hosts.sound
  have hhands : HandsOn (sampleStart.inner.tier.onTableDelta sample.inner.ts sampleTask.delta sampleTask.stamp).2
      [.flip "levels" (.int 3)] := NodeSite.handsOn_flip (by decide +kernel)
  have hflips := (hsound.onTableDelta sample.inner.ts sampleTask.delta sampleTask.stamp).2.flips hhands
  -- the subquery's table first, then that of the shape
  refine .head (.inner _ _ [] (.commit _ (by decide)) (Work.covers_append [] []) (Flips.refl _ _)) ?_
  refine .head (.inner _ _ [.flip "levels" (.int 3)] (.delta _ sampleTask [.flip "levels" (.int 3)]
    (by decide) rfl (Work.covers_append [] _) hhands) (Work.covers_append [] _) hflips) ?_
  refine .head (.inner _ _ [.flip "levels" (.int 3)] (.take _ (.flip "levels" (.int 3)) [] [] rfl)
    (Work.covers_append _ []) (Flips.refl _ _)) ?_
  refine .head (.inner _ _ [.flip "levels" (.int 3)] (.done _ _ [] [] rfl) (Work.covers_append _ [])
    (Flips.refl _ _)) ?_
  refine .head (.outer _ _ (.commit _ (by decide)) rfl) ?_
  refine .head (.outer _ _ (.delta _ ShapeSite.sampleEvent false sampleChanged.sets
    [.flip "levels" (.int 3)] (by decide) rfl (Work.covers_append _ []) (Flips.refl _ _)) rfl) ?_
  refine .head (.outer _ _ (.take _ (.flip "levels" (.int 3)) [] [] rfl) rfl) ?_
  refine .head (.outer _ _ (.begin _ _ (.byCol 1 (.int 3)) [] [] [] rfl) rfl) ?_
  refine .head (.outer _ _ (.read _ _ _ _ [] [] [ShapeSite.sampleRow] ShapeSite.sampleGate _ rfl
    ShapeSite.tells_sample ShapeSite.snapshot_sample ShapeSite.reads_sample) rfl) ?_
  refine .head (.outer _ _ (.land _ _ _ _ [] [] [ShapeSite.sampleRow] ShapeSite.sampleGate none rfl) rfl) ?_
  exact .head (.outer _ _ (.done _ _ [] [] rfl) rfl) .refl

theorem sample_stream_answers : foldStream (fun _ => none) (sampleOuter.stream "s") "7" =
    some (.object [("id",.int 7),("level",.int 3)]) := by
  refine start_sample.stream_answers valid_sample ShapeSite.valid_sample
    (fun l _ => ColumnEquality.finds_meant l.col) (fun l _ => ColumnEquality.finds_meant l.col) run_sample
    (by decide +kernel) (by decide +kernel) rfl rfl ⟨rfl,rfl⟩ ⟨rfl,rfl⟩ (by decide) ShapeSite.sampleSets
    (fun v => ?_) "7"
  constructor
  · intro hv
    exact ⟨"1",⟨[.int 1,.int 3]⟩,by decide +kernel,rfl,(Value.eqv_comm _ _).trans hv⟩
  · rintro ⟨k,r,hat,-,hv⟩
    obtain rfl := RowEvent.eq_of_rowAt_insert hat
    exact (Value.eqv_comm _ _).trans hv

end Cascade
end ElectricCircuits
