import ElectricCircuits.Subquery.NodeView

/-! One node of the tier between two calls: what its rows contribute and what it records, and how a change of its table
and a query-back move these. -/
namespace ElectricCircuits

/-- What is left of the newest rows of a change under a key. -/
lemma RowEvent.Fits.candidateAt_latest {ts : TableSchema} {cur : String → Option Row} {e : RowEvent}
    (h : e.Fits ts cur) (k : String) :
    candidateAt ts (latestRowsByPk ts e.delta).values k = (latestRowsByPk ts e.delta).get? k := by
  refine Option.ext fun c => ?_
  rw [candidateAt_eq_some (distinct_latest ts e.delta)]
  constructor
  · rintro ⟨hc,hkey⟩
    obtain ⟨⟨k',c⟩,hmem,rfl⟩ := List.mem_map.mp hc
    have hget := (AssocMap.mem_entries _ _ _).mp hmem
    have hk := key_of_latest ts e.delta hget
    dsimp only at hkey
    rw [hkey] at hk
    obtain rfl : k = k' := hk
    exact hget
  · intro hget
    have hc : c ∈ (latestRowsByPk ts e.delta).values :=
      List.mem_map.mpr ⟨(k,c),(AssocMap.mem_entries _ _ _).mpr hget,rfl⟩
    have hrow : ts.IsRow c.1 := by
      rcases (h.candidates c).mp hc with ⟨n,hn,rfl⟩ | ⟨o,ho,-,rfl⟩
      · exact h.new_row n hn
      · exact h.old_row o ho
    have hk := key_of_latest ts e.delta hget
    rw [TableSchema.keyString_eq hrow] at hk ⊢
    exact ⟨hc,congrArg Except.ok hk⟩

/-- What a node takes of a candidate. -/
def SubqueryNode.takes (node : SubqueryNode) (ev : SubqueryEval) (c : Row × Bool) : Option Value :=
  if member ev node.pred c then some (c.1.cell node.projCol) else none

namespace NodeTier
variable {D : Dbsp} {T T' : NodeTier D} {ts : TableSchema} {sig : SubquerySig} {st : NodeStatus}

/-- What a row contributes to a node. -/
def contribution (T : NodeTier D) : SubquerySig → String → Option Value := (⟨T,[]⟩ : Draft D).contribution

/-- What was on its way to the circuit is contributed when the batch is in. -/
lemma contribution_applyAsserts (d : Draft D) :
    (d.tier.applyAsserts d.asserts).1.contribution = d.contribution := by
  have hnow : (⟨(d.tier.applyAsserts d.asserts).1,[]⟩ : Draft D).now = d.now := held_applyAsserts d
  funext sig pk
  rw [contribution,Draft.contribution,hnow]
  rfl

/-- The template of a node says what the node's own predicate says, for the rows of the node's bind. -/
structure Serves (T : NodeTier D) (ts : TableSchema) (node : SubqueryNode) (g : TemplateGroup) : Prop where
  group : T.group node.templateKey = some g
  table : g.innerTable = ts.table
  projCol : g.projCol = node.projCol
  pred : ∀ row ev, node.pred.matchesCtx row ev = true ↔
    g.residual.matchesCtx row ev = true ∧ (keyOf row g.paramCols == node.bind) = true

section
variable {node : SubqueryNode} {g : TemplateGroup}

lemma Serves.of_group (h : T.Serves ts node g) (hgroup : T'.group = T.group) : T'.Serves ts node g :=
  ⟨by rw [hgroup]; exact h.group,h.table,h.projCol,h.pred⟩

/-- A row goes to a node exactly if the node's predicate says so. -/
lemma Sound.belongs_target (h : T.Sound) (hserves : T.Serves ts node g) {id : ℕ} (hfix : T.fixed sig = some (node,id))
    (ev : SubqueryEval) (c : Row × Bool) : Draft.belongs (g.target ev c.1 c.2) sig = node.takes ev c := by
  rw [TemplateGroup.target,SubqueryNode.takes,member]
  obtain ⟨g',hg',hb⟩ := h.bound sig node id hfix
  obtain rfl : g' = g := Option.some.inj (hg'.symm.trans hserves.group)
  by_cases hin : (c.2 && g'.residual.matchesCtx c.1 ev) = true
  · rw [if_pos hin]
    obtain ⟨hc,hres⟩ := Bool.and_eq_true_iff.mp hin
    have hpred : (c.2 && node.pred.matchesCtx c.1 ev) = true ↔
        (keyOf c.1 g'.paramCols == node.bind) = true := by
      rw [hc,Bool.true_and,hserves.pred,and_iff_right hres]
    by_cases hkey : (keyOf c.1 g'.paramCols == node.bind) = true
    · rw [if_pos (hpred.mpr hkey),g'.binds.get?_congr hkey,hb,hserves.projCol]
      exact if_pos rfl
    · rw [if_neg fun hm => hkey (hpred.mp hm)]
      cases hget : g'.binds.get? (keyOf c.1 g'.paramCols) with
      | none => rfl
      | some sig' =>
        -- the row's bind leads to another node
        refine if_neg fun heq => ?_
        dsimp only at heq
        rw [heq] at hget
        obtain ⟨node',id',hnode',-,hbind⟩ := h.binds _ g' _ sig hserves.group hget
        obtain ⟨rfl,-⟩ := Prod.mk.inj (Option.some.inj (hfix.symm.trans hnode'))
        exact hkey (BEq.symm hbind)
  · rw [if_neg hin,if_neg]
    · rfl
    · intro hm
      obtain ⟨hc,hpred⟩ := Bool.and_eq_true_iff.mp hm
      exact hin (Bool.and_eq_true_iff.mpr ⟨hc,((hserves.pred c.1 ev).mp hpred).1⟩)

/-- What a change of its table is to a node. -/
lemma Sound.onTableDelta_at (h : T.Sound) (hst : T.status sig = some st) (hserves : T.Serves ts st.node g)
    (delta : Delta) (stamp : CommitStamp) :
    (T.onTableDelta ts delta stamp).1.status = T.status ∧ (T.onTableDelta ts delta stamp).1.group = T.group ∧
    (⟨T,[]⟩ : Draft D).DecidedAt ⟨(T.onTableDelta ts delta stamp).1,[]⟩ stamp sig st
      ((latestRowsByPk ts delta).entries.map fun c => (c.1,g.target T.sets.eval c.2.1 c.2.2)) := by
  have hmem : st.node.templateKey ∈ T.templatesOf ts.table := by
    obtain ⟨t,ht,rfl⟩ := Option.map_eq_some_iff.mp hserves.group
    rw [templatesOf,AssocMap.mem_keys,AssocMap.get?_filter,ht]
    simp [hserves.table]
  obtain ⟨hkeeps,-,hat⟩ := Draft.Sound.changeTemplates h stamp ts delta hst (T.templatesOf ts.table)
    (AssocMap.nodup_keys _)
  have hpresent : T.templatePresent ts st.node.templateKey delta =
      (latestRowsByPk ts delta).entries.map fun c => (c.1,g.target T.sets.eval c.2.1 c.2.2) := by
    rw [templatePresent,hserves.group]
  rw [if_pos hmem,hpresent] at hat
  have hc : (T.onTableDelta ts delta stamp).1.contribution = _ := contribution_applyAsserts _
  refine ⟨hkeeps.status,hkeeps.group,fun hlen ha e he => ?_,fun hlen pk hpk => ?_,hat.recent⟩
  · exact (congrFun (congrFun hc sig) e.1).trans (hat.here hlen ha e he)
  · exact (congrFun (congrFun hc sig) pk).trans (hat.there hlen pk hpk)

/-- What some rows of a node come to when they are asserted. -/
lemma Sound.applyNodeEvals_at (h : T.Sound) (hst : T.status sig = some st) (evals : List (String × Option Value))
    (hnodup : (evals.map (·.1)).Nodup) :
    (T.applyNodeEvals sig evals).1.status = T.status ∧ (T.applyNodeEvals sig evals).1.group = T.group ∧
    (T.applyNodeEvals sig evals).1.recentOf = T.recentOf ∧
    ((T.applyNodeEvals sig evals).1.pkDict.len ≤ 2^32 →
      (∀ e ∈ evals, (T.applyNodeEvals sig evals).1.contribution sig e.1 = e.2) ∧
      ∀ pk, pk ∉ evals.map (·.1) → (T.applyNodeEvals sig evals).1.contribution sig pk = T.contribution sig pk) := by
  have hlive : T.fixed sig ≠ none := by
    rw [fixed_of_status hst]
    exact Option.some_ne_none _
  obtain ⟨hkeeps,-,hrecent,hat⟩ := Draft.Sound.comes_asserts h hlive evals hnodup
  have hc : (T.applyNodeEvals sig evals).1.contribution = _ := contribution_applyAsserts _
  refine ⟨hkeeps.status,hkeeps.group,hrecent,fun hlen => ?_⟩
  obtain ⟨hhere,hthere⟩ := hat hlen
  rw [hc]
  exact ⟨hhere,fun pk hpk => hthere sig pk fun _ => hpk⟩

end

/-- What a node that is seeded is at. -/
structure Seen (T : NodeTier D) (ts : TableSchema) (sig : SubquerySig) (node : SubqueryNode) (gate : SnapshotGate)
    (inflight : ℕ) (recent : String → Option CommitStamp) (shown : String → Option Value) : Prop where
  serves : ∃ g, T.Serves ts node g
  status : ∃ id, T.status sig = some ⟨node,id,gate,false,inflight⟩
  recent : ∀ pk, T.recentOf sig pk = recent pk
  shown : ∀ pk, T.contribution sig pk = shown pk

section
variable {node : SubqueryNode} {gate : SnapshotGate} {inflight : ℕ} {recent : String → Option CommitStamp}
  {shown : String → Option Value}

theorem Seen.onTableDelta (h : T.Seen ts sig node gate inflight recent shown) (hsound : T.Sound) {e : RowEvent}
    {cur : String → Option Row} (he : e.Fits ts cur)
    (hlen : (T.onTableDelta ts e.delta e.stamp).1.pkDict.len ≤ 2^32) :
    (gate.sees e = false → (T.onTableDelta ts e.delta e.stamp).1.Seen ts sig node gate inflight
      (recentAfter ts inflight (.live e.stamp) (latestRowsByPk ts e.delta).values recent)
      (shownAfter ts (node.takes T.sets.eval) (.live e.stamp) (latestRowsByPk ts e.delta).values recent shown)) ∧
    (gate.sees e = true → (T.onTableDelta ts e.delta e.stamp).1.Seen ts sig node gate inflight recent shown) := by
  obtain ⟨g,hserves⟩ := h.serves
  obtain ⟨id,hst⟩ := h.status
  obtain ⟨hstatus,hgroup,hat⟩ := hsound.onTableDelta_at hst hserves e.delta e.stamp
  have hst' : (T.onTableDelta ts e.delta e.stamp).1.status sig = some ⟨node,id,gate,false,inflight⟩ := by
    rw [hstatus]
    exact hst
  have happlies : (⟨node,id,gate,false,inflight⟩ : NodeStatus).applies e.stamp = !gate.sees e := rfl
  have hmem : ∀ pk, pk ∈ ((latestRowsByPk ts e.delta).entries.map fun c =>
      (c.1,g.target T.sets.eval c.2.1 c.2.2)).map (·.1) ↔ ((latestRowsByPk ts e.delta).get? pk).isSome = true := by
    intro pk
    rw [List.map_map]
    exact AssocMap.mem_keys _ pk
  constructor
  · intro hsees
    rw [hsees] at happlies
    refine ⟨⟨g,hserves.of_group hgroup⟩,⟨id,hst'⟩,fun pk => (hat.recent pk).trans ?_,fun pk => ?_⟩
    · rw [recentAfter,he.candidateAt_latest]
      refine if_congr ?_ rfl (h.recent pk)
      rw [hmem,happlies]
      simp
    · rw [shownAfter,he.candidateAt_latest]
      cases hc : (latestRowsByPk ts e.delta).get? pk with
      | none =>
        have hnot : pk ∉ ((latestRowsByPk ts e.delta).entries.map fun c =>
            (c.1,g.target T.sets.eval c.2.1 c.2.2)).map (·.1) := by
          rw [hmem,hc]
          exact Bool.false_ne_true
        exact (hat.there hlen pk fun hin => absurd hin hnot).trans (h.shown pk)
      | some c =>
        have hin := hat.here hlen happlies (pk,g.target T.sets.eval c.1 c.2)
          (List.mem_map.mpr ⟨(pk,c),(AssocMap.mem_entries _ _ _).mpr hc,rfl⟩)
        rw [hsound.belongs_target hserves (fixed_of_status hst)] at hin
        exact hin
  · intro hsees
    rw [hsees] at happlies
    refine ⟨⟨g,hserves.of_group hgroup⟩,⟨id,hst'⟩,fun pk => (hat.recent pk).trans ?_,fun pk => ?_⟩
    · rw [if_neg fun hcase => Bool.false_ne_true (happlies.symm.trans hcase.2.1)]
      exact h.recent pk
    · exact (hat.there hlen pk fun _ => happlies).trans (h.shown pk)

/-- What a query-back evaluates: the rows under their keys, but for those decided meanwhile. -/
lemma evals_queryBack {n : LiveNode} {rows : List Row} (hrows : ∀ r ∈ rows, ts.IsRow r) (gate' : SnapshotGate)
    (hrecent : ∀ pk, n.recent.get? pk = recent pk) : T.nodeQuerybackEvals ts n rows gate' =
      (rows.filter fun r => gate'.keeps (recent (ts.name r))).map fun r =>
        (ts.name r,n.toSubqueryNode.takes T.sets.eval (r,true)) := by
  have hfilter : (rows.filter fun r => gate'.keeps (n.recent.get? (ts.pkOf r))) =
      rows.filter fun r => gate'.keeps (recent (ts.name r)) :=
    List.filter_congr fun r hr => by rw [hrecent,TableSchema.pkOf_eq (hrows r hr)]
  rw [nodeQuerybackEvals,hfilter]
  refine List.map_congr_left fun r hr => ?_
  rw [TableSchema.pkOf_eq (hrows r (List.mem_of_mem_filter hr))]
  rfl

/-- What a query-back does to a node. -/
theorem Seen.queryBack (h : T.Seen ts sig node gate inflight recent shown) (hsound : T.Sound) {rows : List Row}
    (hrows : ∀ r ∈ rows, ts.IsRow r) (hnodup : (rows.map ts.name).Nodup) (gate' : SnapshotGate)
    (hlen : (T.queryBack ts sig rows gate').1.pkDict.len ≤ 2^32) :
    (T.queryBack ts sig rows gate').1.Seen ts sig node gate inflight recent
      (shownAfter ts (node.takes T.sets.eval) (.queryBack gate') (rows.map (·,true)) recent shown) := by
  obtain ⟨g,hserves⟩ := h.serves
  obtain ⟨id,hst⟩ := h.status
  obtain ⟨n,hn,hstatus⟩ := Option.map_eq_some_iff.mp hst
  have hnode : n.toSubqueryNode = node := congrArg NodeStatus.node hstatus
  have hrecent : ∀ pk, n.recent.get? pk = recent pk := by
    intro pk
    rw [← h.recent,recentOf,hn]
    rfl
  have hevals := hnode ▸ evals_queryBack (T := T) (n := n) hrows gate' hrecent
  have hdistinct := Distinct.of_nodup hrows hnodup
  have hq : T.queryBack ts sig rows gate' = T.applyNodeEvals sig (T.nodeQuerybackEvals ts n rows gate') := by
    rw [NodeTier.queryBack,hn]
  rw [hq,hevals] at hlen ⊢
  obtain ⟨hstatus',hgroup,hrecent',hat⟩ := hsound.applyNodeEvals_at hst
    ((rows.filter fun r => gate'.keeps (recent (ts.name r))).map fun r =>
      (ts.name r,node.takes T.sets.eval (r,true)))
    (by rw [List.map_map]; exact hnodup.sublist (List.filter_sublist.map ts.name))
  obtain ⟨hhere,hthere⟩ := hat hlen
  refine ⟨⟨g,hserves.of_group hgroup⟩,⟨id,by rw [hstatus']; exact hst⟩,fun pk => ?_,fun pk => ?_⟩
  · rw [hrecent']
    exact h.recent pk
  · rw [shownAfter]
    simp only [EmissionSource.keeps_queryBack]
    cases hc : (candidateAt ts (rows.map (·,true)) pk).filter fun _ => gate'.keeps (recent pk) with
    | some c =>
      obtain ⟨hc,hkeep⟩ := Option.filter_eq_some_iff.mp hc
      obtain ⟨hmem,hpk⟩ := (candidateAt_eq_some hdistinct).mp hc
      obtain ⟨r,hr,rfl⟩ := List.mem_map.mp hmem
      rw [TableSchema.keyString_eq (hrows r hr)] at hpk
      obtain rfl := Except.ok.inj hpk
      exact hhere _ (List.mem_map.mpr ⟨r,List.mem_filter.mpr ⟨hr,hkeep⟩,rfl⟩)
    | none =>
      refine (hthere pk fun hin => ?_).trans (h.shown pk)
      obtain ⟨x,hx,rfl⟩ := List.mem_map.mp hin
      obtain ⟨r,hr,rfl⟩ := List.mem_map.mp hx
      obtain ⟨hr,hkeep⟩ := List.mem_filter.mp hr
      have hsome := (candidateAt_eq_some hdistinct).mpr
        ⟨List.mem_map.mpr ⟨r,hr,rfl⟩,TableSchema.keyString_eq (hrows r hr)⟩
      rw [hsome,Option.filter_some,if_pos hkeep] at hc
      cases hc

/-- What a node counts and records may change between two calls. -/
lemma contribution_editNode (T : NodeTier D) (sig : SubquerySig) {f : LiveNode → LiveNode}
    (hf : ∀ n, (f n).toSubqueryNode = n.toSubqueryNode ∧ (f n).nodeId = n.nodeId) :
    (T.editNode sig f).contribution = T.contribution ∧ (T.editNode sig f).group = T.group := by
  obtain ⟨hframe,-,hdict⟩ := frame_editNode T sig hf
  exact ⟨@Draft.contribution_of_frame D ⟨T,[]⟩ _ hframe hdict,hframe.group⟩

theorem Seen.begin (h : T.Seen ts sig node gate inflight recent shown) :
    (T.beginNodeQueryback sig).Seen ts sig node gate (inflight+1) recent shown := by
  obtain ⟨g,hserves⟩ := h.serves
  obtain ⟨id,hst⟩ := h.status
  obtain ⟨n,hn,hstatus⟩ := Option.map_eq_some_iff.mp hst
  obtain ⟨hc,hgroup⟩ := contribution_editNode T sig
    (f := fun n => { n with inflightQuerybacks := n.inflightQuerybacks+1 }) fun _ => ⟨rfl,rfl⟩
  refine ⟨⟨g,hserves.of_group hgroup⟩,⟨id,?_⟩,fun pk => ?_,fun pk => ?_⟩
  · rw [NodeTier.status,beginNodeQueryback,get_editNode,if_pos rfl,hn]
    rw [LiveNode.status] at hstatus
    simp only [NodeStatus.mk.injEq] at hstatus
    obtain ⟨h1,h2,h3,h4,h5⟩ := hstatus
    simp [LiveNode.status,h1,h2,h3,h4,h5]
  · rw [← h.recent,recentOf,recentOf,beginNodeQueryback,get_editNode,if_pos rfl,hn]
    rfl
  · rw [← h.shown,beginNodeQueryback,hc]

theorem Seen.done (h : T.Seen ts sig node gate inflight recent shown) :
    (T.endNodeQueryback sig).Seen ts sig node gate (inflight-1)
      (fun pk => if inflight-1 = 0 then none else recent pk) shown := by
  obtain ⟨g,hserves⟩ := h.serves
  obtain ⟨id,hst⟩ := h.status
  obtain ⟨n,hn,hstatus⟩ := Option.map_eq_some_iff.mp hst
  rw [LiveNode.status] at hstatus
  simp only [NodeStatus.mk.injEq] at hstatus
  obtain ⟨h1,h2,h3,h4,h5⟩ := hstatus
  obtain ⟨hc,hgroup⟩ := contribution_editNode T sig (f := fun n => { n with
    inflightQuerybacks := n.inflightQuerybacks-1
    recent := if n.inflightQuerybacks-1 = 0 then .empty else n.recent }) fun _ => ⟨rfl,rfl⟩
  refine ⟨⟨g,hserves.of_group hgroup⟩,⟨id,?_⟩,fun pk => ?_,fun pk => ?_⟩
  · rw [NodeTier.status,endNodeQueryback,get_editNode,if_pos rfl,hn]
    simp [LiveNode.status,h1,h2,h3,h4,h5]
  · rw [← h.recent,recentOf,recentOf,endNodeQueryback,get_editNode,if_pos rfl,hn]
    simp only [Option.map_some,Option.bind_some,h5]
    split_ifs <;> rfl
  · rw [← h.shown,endNodeQueryback,hc]

/-- What a row contributes is in the node's set. -/
lemma mem_sets_of_contribution (h : T.Sound) {pk : String} {v : Value} (hc : T.contribution sig pk = some v) :
    T.sets sig v = true := by
  obtain ⟨x,hfix,hc⟩ := Option.bind_eq_some_iff.mp hc
  obtain ⟨id,-,hheld⟩ := Option.bind_eq_some_iff.mp hc
  have hfix : T.fixed sig = some x := hfix
  rw [sets_eq,hfix]
  exact (h.circuit.contains_iff x.2 v).mpr ⟨id,v,hheld,Value.eqv_refl v⟩

/-- A value is in a node's set exactly if a row contributes it. -/
lemma Sound.mem_sets (h : T.Sound) (hlen : T.pkDict.len ≤ 2^32) (sig : SubquerySig) (v : Value) :
    T.sets sig v = true ↔ ∃ pk w, T.contribution sig pk = some w ∧ w.eqv v = true := by
  constructor
  · intro hv
    rw [sets_eq] at hv
    obtain ⟨x,hfix,hv⟩ := (Option.any_eq_true ..).mp hv
    obtain ⟨id,w,hw,hwv⟩ := (h.circuit.contains_iff x.2 v).mp hv
    -- the id of a row is that of some key
    have hid : id < T.pkDict.len := h.minted hlen ⟨x.2,id⟩ (by
      change T.circuit.held ⟨x.2,id⟩ ≠ none
      rw [hw]
      exact Option.some_ne_none w)
    have hpk := (PkDict.get_iff hlen).mpr (List.getElem?_eq_getElem hid)
    have hfix : (⟨T,[]⟩ : Draft D).tier.fixed sig = some x := hfix
    refine ⟨T.pkDict.reverse[id],w,?_,hwv⟩
    rw [contribution,Draft.contribution,hfix,Option.bind_some,hpk]
    exact hw
  · rintro ⟨pk,w,hw,hwv⟩
    have hmem := mem_sets_of_contribution h hw
    rw [sets_eq] at hmem ⊢
    obtain ⟨x,hfix,hv⟩ := (Option.any_eq_true ..).mp hmem
    rw [hfix]
    obtain ⟨id,u,hu,huw⟩ := (h.circuit.contains_iff x.2 w).mp hv
    exact (h.circuit.contains_iff x.2 v).mpr ⟨id,u,hu,Value.eqv_trans huw hwv⟩

/-- A seed that no change came to meanwhile: the gate is set, the rows go in, and the buffer is closed. -/
lemma installSeed_eq {node : SubqueryNode} {id : ℕ} {gate : SnapshotGate} {rows : List Row}
    (hn : T.nodes.get? sig = some ⟨node,id,.passthrough,some [],.empty,0⟩) :
    (T.installSeed ts sig rows gate).1 = ((T.editNode sig ({ · with gate := gate })).applyNodeEvals sig
      (rows.map fun r => (ts.pkOf r,some (r.cell node.projCol)))).1.editNode sig ({ · with seedBuffer := none }) := by
  rw [NodeTier.installSeed,hn]
  rfl

/-- What a node is at when its seed is in, where no change came meanwhile. -/
lemma Sound.installSeed_at (h : T.Sound) {node : SubqueryNode} {id : ℕ} {gate : SnapshotGate}
    (hn : T.nodes.get? sig = some ⟨node,id,.passthrough,some [],.empty,0⟩) (hserves : ∃ g, T.Serves ts node g)
    {rows : List Row} (hrows : ∀ r ∈ rows, ts.IsRow r) (hnodup : (rows.map ts.name).Nodup)
    (hlen : (T.installSeed ts sig rows gate).1.pkDict.len ≤ 2^32) :
    (T.installSeed ts sig rows gate).1.Seen ts sig node gate 0 (fun _ => none)
      ((T.installSeed ts sig rows gate).1.contribution sig) ∧
    (∀ r ∈ rows, (T.installSeed ts sig rows gate).1.contribution sig (ts.name r) = some (r.cell node.projCol)) ∧
    ∀ pk, pk ∉ rows.map ts.name → (T.installSeed ts sig rows gate).1.contribution sig pk = T.contribution sig pk := by
  have hkeys : (rows.map fun r => (ts.pkOf r,some (r.cell node.projCol))).map (·.1) = rows.map ts.name := by
    rw [List.map_map]
    refine List.map_congr_left fun r hr => ?_
    exact TableSchema.pkOf_eq (hrows r hr)
  rw [installSeed_eq hn] at hlen ⊢
  have hst : (T.editNode sig ({ · with gate := gate })).status sig = some ⟨node,id,gate,true,0⟩ := by
    rw [NodeTier.status,get_editNode,if_pos rfl,hn]
    rfl
  obtain ⟨hc,hgroup⟩ := contribution_editNode T sig (f := ({ · with gate := gate })) fun _ => ⟨rfl,rfl⟩
  obtain ⟨hstatus,hgroup',hrecent,hat⟩ := (h.editNode sig (f := ({ · with gate := gate })) fun _ =>
    ⟨rfl,rfl⟩).applyNodeEvals_at hst (rows.map fun r => (ts.pkOf r,some (r.cell node.projCol)))
      (by rw [hkeys]; exact hnodup)
  generalize ((T.editNode sig ({ · with gate := gate })).applyNodeEvals sig
    (rows.map fun r => (ts.pkOf r,some (r.cell node.projCol)))).1 = T₂ at hlen hstatus hgroup' hrecent hat ⊢
  obtain ⟨hc',hgroup''⟩ := contribution_editNode T₂ sig (f := ({ · with seedBuffer := none })) fun _ => ⟨rfl,rfl⟩
  rw [(frame_editNode T₂ sig (f := ({ · with seedBuffer := none })) fun _ => ⟨rfl,rfl⟩).2.2] at hlen
  obtain ⟨hhere,hthere⟩ := hat hlen
  rw [hkeys] at hthere
  rw [hc']
  obtain ⟨n₂,hn₂,hs₂⟩ := Option.map_eq_some_iff.mp ((congrFun hstatus sig).trans hst)
  refine ⟨⟨?_,⟨id,?_⟩,fun pk => ?_,fun pk => congrFun (congrFun hc' sig) pk⟩,fun r hr => ?_,fun pk hpk => ?_⟩
  · obtain ⟨g,hserves⟩ := hserves
    exact ⟨g,hserves.of_group (hgroup''.trans (hgroup'.trans hgroup))⟩
  · rw [LiveNode.status] at hs₂
    simp only [NodeStatus.mk.injEq] at hs₂
    obtain ⟨h1,h2,h3,-,h5⟩ := hs₂
    rw [NodeTier.status,get_editNode,if_pos rfl,hn₂]
    simp [LiveNode.status,h1,h2,h3,h5]
  · have hpk : T₂.recentOf sig pk = none := by
      rw [hrecent,recentOf,get_editNode,if_pos rfl,hn]
      rfl
    rw [recentOf,hn₂] at hpk
    rw [recentOf,get_editNode,if_pos rfl,hn₂]
    exact hpk
  · have hin := hhere _ (List.mem_map.mpr ⟨r,hr,rfl⟩)
    rw [TableSchema.pkOf_eq (hrows r hr)] at hin
    exact hin
  · rw [hthere pk hpk,hc]

end

end NodeTier
end ElectricCircuits
