import ElectricCircuits.Subquery.NodeRuns
import ElectricCircuits.Subquery.NodeSeen

/-! Calls for other nodes and changes of other tables leave a node alone: it is at work as before, and its rows
contribute what they did. -/
namespace ElectricCircuits

namespace Draft
variable {D : Dbsp} {d d' d'' : Draft D} {ts : TableSchema} {sig sig' : SubquerySig} {node : SubqueryNode}

/-- The node is there, under a template that serves it. -/
structure Hosts (d : Draft D) (ts : TableSchema) (sig : SubquerySig) (node : SubqueryNode) : Prop where
  sound : d.Sound
  serves : ∃ g, d.tier.Serves ts node g
  fixed : ∃ id, d.tier.fixed sig = some (node,id)

/-- What happens without the node. -/
structure LeavesAlone (d d' : Draft D) (ts : TableSchema) (sig : SubquerySig) (node : SubqueryNode) : Prop where
  hosts : d'.Hosts ts sig node
  grows : d.tier.pkDict.Grows d'.tier.pkDict
  status : d'.tier.status sig = d.tier.status sig
  recent : ∀ pk, d'.tier.recentOf sig pk = d.tier.recentOf sig pk
  contribution : d'.tier.pkDict.len ≤ 2^32 → ∀ pk, d'.contribution sig pk = d.contribution sig pk

lemma Hosts.alone (h : d.Hosts ts sig node) : d.LeavesAlone d ts sig node :=
  ⟨h,.refl _,rfl,fun _ => rfl,fun _ _ => rfl⟩

lemma LeavesAlone.trans (h : d.LeavesAlone d' ts sig node) (h' : d'.LeavesAlone d'' ts sig node) :
    d.LeavesAlone d'' ts sig node where
  hosts := h'.hosts
  grows := h.grows.trans h'.grows
  status := h'.status.trans h.status
  recent pk := (h'.recent pk).trans (h.recent pk)
  contribution hlen pk := (h'.contribution hlen pk).trans (h.contribution (h'.grows.len.trans hlen) pk)

/-- A pass that leaves the node alone at each item does so as a whole. -/
lemma alone_fold {α σ : Type} (draft : σ → Draft D) {step : σ → α → σ} {xs : List α}
    (hstep : ∀ s, ∀ x ∈ xs, (draft s).Hosts ts sig node → (draft s).LeavesAlone (draft (step s x)) ts sig node)
    {s : σ} (h : (draft s).Hosts ts sig node) : (draft s).LeavesAlone (draft (xs.foldl step s)) ts sig node := by
  induction xs generalizing s with
  | nil => exact h.alone
  | cons x xs ih =>
    have halone := hstep s x List.mem_cons_self h
    exact halone.trans (ih (fun s x hx => hstep s x (List.mem_cons_of_mem _ hx)) halone.hosts)

lemma Hosts.alone_editNode (h : d.Hosts ts sig node) (hne : sig' ≠ sig) {f : LiveNode → LiveNode}
    (hf : ∀ n, (f n).toSubqueryNode = n.toSubqueryNode ∧ (f n).nodeId = n.nodeId) :
    d.LeavesAlone ⟨d.tier.editNode sig' f,d.asserts⟩ ts sig node := by
  obtain ⟨hframe,-,hdict⟩ := NodeTier.frame_editNode d.tier sig' hf
  obtain ⟨g,hserves⟩ := h.serves
  obtain ⟨id,hfix⟩ := h.fixed
  refine ⟨⟨(h.sound.editNode sig' hf).1,⟨g,hserves.of_group hframe.group⟩,⟨id,by rw [hframe.fixed]; exact hfix⟩⟩,
    hframe.grows,?_,fun pk => ?_,fun _ pk => ?_⟩
  · rw [NodeTier.status,NodeTier.status,NodeTier.get_editNode,if_neg hne]
  · rw [NodeTier.recentOf,NodeTier.recentOf,NodeTier.get_editNode,if_neg hne]
  · rw [contribution_of_frame hframe hdict]

lemma Hosts.alone_assert (h : d.Hosts ts sig node) (hne : sig' ≠ sig) (pk : String) (present : Option Value) :
    d.LeavesAlone (d.assert sig' pk present) ts sig node := by
  cases hn : d.tier.nodes.get? sig' with
  | none =>
    rw [assert_of_none hn]
    exact h.alone
  | some n =>
    have hlive : d.tier.fixed sig' ≠ none := by
      rw [NodeTier.fixed_of_get hn]
      exact Option.some_ne_none _
    obtain ⟨hframe,hnodes⟩ := frame_assert d sig' pk present
    obtain ⟨hstatus,hrecent⟩ := NodeTier.status_of_nodes hnodes
    obtain ⟨g,hserves⟩ := h.serves
    obtain ⟨id,hfix⟩ := h.fixed
    refine ⟨⟨h.sound.assert sig' pk present,⟨g,hserves.of_group hframe.group⟩,⟨id,by rw [hframe.fixed]; exact hfix⟩⟩,
      hframe.grows,congrFun hstatus sig,congrFun (congrFun hrecent sig),fun hlen pk' => ?_⟩
    exact (h.sound.contribution_assert hlive hlen sig pk').trans (if_neg fun hcase => hne hcase.1.symm)

/-- What leaves the node alone does so when it is in the circuit. -/
lemma LeavesAlone.applied (h : d.LeavesAlone d' ts sig node) :
    d.LeavesAlone ⟨(d'.tier.applyAsserts d'.asserts).1,[]⟩ ts sig node := by
  obtain ⟨g,hserves⟩ := h.hosts.serves
  refine ⟨⟨NodeTier.sound_applyAsserts h.hosts.sound,⟨g,hserves.of_group rfl⟩,h.hosts.fixed⟩,h.grows,h.status,h.recent,
    fun hlen pk => ?_⟩
  exact (congrFun (congrFun (NodeTier.contribution_applyAsserts d') sig) pk).trans (h.contribution hlen pk)

lemma nodes_removeNode {n : LiveNode} (hn : d.tier.nodes.get? sig' = some n) :
    (d.removeNode sig').tier.nodes = d.tier.nodes.erase sig' := by
  have hfold : ∀ (ids : List ℕ) (T : NodeTier D),
      (ids.foldl (fun T id => T.editPkNodes n.templateKey (·.remove id sig')) T).nodes = T.nodes := by
    intro ids
    induction ids with
    | nil => exact fun _ => rfl
    | cons id ids ih => exact fun T => (ih _).trans (NodeTier.nodes_editPkNodes ..)
  rw [Draft.removeNode,hn]
  exact (NodeTier.other_unbind _ n.templateKey n.bind).1.trans (hfold _ _)

/-- A node that goes leaves the others where they are, and their templates too. -/
lemma Hosts.alone_removeNode (h : d.Hosts ts sig node) (hspent : d.Spent) (hne : sig' ≠ sig) :
    d.LeavesAlone (d.removeNode sig') ts sig node := by
  cases hn : d.tier.nodes.get? sig' with
  | none =>
    rw [Draft.removeNode,hn]
    exact h.alone
  | some n =>
    have hr := h.sound.removed hspent hn
    obtain ⟨g,hserves⟩ := h.serves
    obtain ⟨id,hfix⟩ := h.fixed
    have hfixed : (d.removeNode sig').tier.fixed sig = d.tier.fixed sig := by rw [hr.fixed,if_neg hne.symm]
    have hget : (d.removeNode sig').tier.nodes.get? sig = d.tier.nodes.get? sig := by
      rw [nodes_removeNode hn,AssocMap.get?_erase,if_neg (by simpa using hne)]
    have hid : id ≠ n.nodeId := h.sound.id_ne hn hne.symm hfix
    refine ⟨⟨hr.sound h.sound hn,?_,⟨id,hfixed.trans hfix⟩⟩,hr.grows,?_,fun pk => ?_,fun hlen pk => ?_⟩
    · -- the bind of the node stays in the template
      obtain ⟨g',hg',-⟩ := hr.bound h.sound hn hne.symm hfix
      have hleft := hg'
      rw [hr.group,hserves.group] at hleft
      dsimp only [Option.bind_some] at hleft
      split_ifs at hleft <;> obtain rfl := Option.some.inj hleft
      · exact ⟨_,hg',hserves.table,hserves.projCol,hserves.pred⟩
      · exact ⟨_,hg',hserves.table,hserves.projCol,hserves.pred⟩
    · rw [NodeTier.status,NodeTier.status,hget]
    · rw [NodeTier.recentOf,NodeTier.recentOf,hget]
    · rw [contribution,contribution,hfixed,hfix,Option.bind_some,Option.bind_some,← h.sound.bind_now hr.grows hlen]
      refine Option.bind_congr fun i _ => ?_
      rw [hr.now,if_neg hid]

lemma Hosts.alone_removeNodes (h : d.Hosts ts sig node) (hspent : d.Spent) {sigs : List SubquerySig}
    (hnot : sig ∉ sigs) : d.LeavesAlone (sigs.foldl Draft.removeNode d) ts sig node := by
  induction sigs generalizing d with
  | nil => exact h.alone
  | cons sig' sigs ih =>
    have hne : sig' ≠ sig := fun heq => hnot (heq ▸ List.mem_cons_self)
    have halone := h.alone_removeNode hspent hne
    exact halone.trans (ih halone.hosts (h.sound.removeNode hspent sig').2 fun hin =>
      hnot (List.mem_cons_of_mem _ hin))

end Draft

namespace NodeTier
variable {D : Dbsp} {T T' : NodeTier D} {ts : TableSchema} {sig sig' : SubquerySig} {node : SubqueryNode}

/-- The calls for other nodes, and the changes of other tables. -/
inductive Elsewhere (ts : TableSchema) (sig : SubquerySig) : NodeTier D → NodeTier D → Prop
  | collect (T : NodeTier D) (node : SubqueryNode) (g : TemplateGroup) (hnew : T.nodes.get? node.sig = none)
    (hfree : ∀ g, T.group node.templateKey = some g → g.binds.get? node.bind = none) :
    Elsewhere ts sig T (T.collectNode node g)
  | seed (T : NodeTier D) (ts' : TableSchema) (sig' : SubquerySig) (rows : List Row) (gate : SnapshotGate)
    (hne : sig' ≠ sig) : Elsewhere ts sig T (T.installSeed ts' sig' rows gate).1
  | delta (T : NodeTier D) (ts' : TableSchema) (delta : Delta) (stamp : CommitStamp) (hne : ts'.table ≠ ts.table) :
    Elsewhere ts sig T (T.onTableDelta ts' delta stamp).1
  | begin (T : NodeTier D) (sig' : SubquerySig) (hne : sig' ≠ sig) : Elsewhere ts sig T (T.beginNodeQueryback sig')
  | queryBack (T : NodeTier D) (ts' : TableSchema) (sig' : SubquerySig) (rows : List Row) (gate : SnapshotGate)
    (hne : sig' ≠ sig) : Elsewhere ts sig T (T.queryBack ts' sig' rows gate).1
  | done (T : NodeTier D) (sig' : SubquerySig) (hne : sig' ≠ sig) : Elsewhere ts sig T (T.endNodeQueryback sig')
  | remove (T : NodeTier D) (sigs : List SubquerySig) (hnot : sig ∉ sigs) : Elsewhere ts sig T (T.removeNodes sigs)
  | grow (T : NodeTier D) (dict : PkDict) (h : T.pkDict.Grows dict) : Elsewhere ts sig T { T with pkDict := dict }

section
variable (h : (⟨T,[]⟩ : Draft D).Hosts ts sig node)
include h

lemma alone_applyNodeEvals (hne : sig' ≠ sig) (evals : List (String × Option Value)) :
    (⟨T,[]⟩ : Draft D).LeavesAlone ⟨(T.applyNodeEvals sig' evals).1,[]⟩ ts sig node :=
  (Draft.alone_fold (fun d : Draft D => d) (fun _ e _ hd => hd.alone_assert hne e.1 e.2) h).applied

lemma alone_replayDelta {ts' : TableSchema} (hne : sig' ≠ sig) (b : BufferedDelta) :
    (⟨T,[]⟩ : Draft D).LeavesAlone ⟨(T.replayDelta ts' sig' b).1,[]⟩ ts sig node := by
  rw [replayDelta]
  cases T.nodes.get? sig' with
  | none => exact h.alone
  | some n =>
    have hrecord : ∀ pks, (⟨T,[]⟩ : Draft D).LeavesAlone ⟨T.recordNodeRecency sig' pks b.stamp,[]⟩ ts sig node := by
      intro pks
      rw [recordNodeRecency]
      split_ifs
      · exact Draft.alone_fold (fun T : NodeTier D => ⟨T,[]⟩) (fun _ pk _ hT => hT.alone_editNode hne
          (f := fun n => { n with recent := n.recent.insert pk b.stamp }) fun _ => ⟨rfl,rfl⟩) h
      · exact h.alone
    exact (hrecord _).trans (alone_applyNodeEvals (hrecord _).hosts hne _)

lemma alone_installSeed {ts' : TableSchema} (hne : sig' ≠ sig) (rows : List Row) (gate : SnapshotGate) :
    (⟨T,[]⟩ : Draft D).LeavesAlone ⟨(T.installSeed ts' sig' rows gate).1,[]⟩ ts sig node := by
  rw [installSeed]
  cases T.nodes.get? sig' with
  | none => exact h.alone
  | some n =>
    -- the gate, the rows of the seed, the end of the buffer, and what was in it
    have hgate := h.alone_editNode hne (f := ({ · with gate := gate })) fun _ => ⟨rfl,rfl⟩
    have hrows := hgate.trans (alone_applyNodeEvals hgate.hosts hne
      (rows.map fun r => (ts'.pkOf r,some (r.cell n.projCol))))
    have hopen := hrows.trans (hrows.hosts.alone_editNode hne (f := ({ · with seedBuffer := none })) fun _ =>
      ⟨rfl,rfl⟩)
    refine hopen.trans (Draft.alone_fold (fun r : NodeTier D × List (SubquerySig × Flip) => ⟨r.1,[]⟩)
      (fun _ b _ hr => ?_) (s := (_,[])) hopen.hosts)
    exact alone_replayDelta hr hne b

/-- A change of another table decides nothing for the node. -/
lemma alone_onTableDelta {ts' : TableSchema} (hne : ts'.table ≠ ts.table) (delta : Delta) (stamp : CommitStamp) :
    (⟨T,[]⟩ : Draft D).LeavesAlone ⟨(T.onTableDelta ts' delta stamp).1,[]⟩ ts sig node := by
  obtain ⟨g,hserves⟩ := h.serves
  obtain ⟨id,hfix⟩ := h.fixed
  obtain ⟨n,hn,heq⟩ := Option.map_eq_some_iff.mp hfix
  obtain ⟨rfl,rfl⟩ := Prod.mk.inj heq
  have hst : T.status sig = some n.status := by
    rw [NodeTier.status]
    exact congrArg (Option.map LiveNode.status) hn
  have hmem : n.templateKey ∉ T.templatesOf ts'.table := by
    obtain ⟨t,ht,rfl⟩ := Option.map_eq_some_iff.mp hserves.group
    have ht : T.templates.get? n.templateKey = some t := ht
    rw [templatesOf,AssocMap.mem_keys,AssocMap.get?_filter,ht]
    simp [hserves.table,Ne.symm hne]
  obtain ⟨hkeeps,-,hat⟩ := h.sound.changeTemplates stamp ts' delta hst (T.templatesOf ts'.table)
    (AssocMap.nodup_keys _)
  have hsound : (T.onTableDelta ts' delta stamp).1.Sound := (Sound.onTableDelta _ h.sound delta stamp).1
  rw [show n.status.node.templateKey = n.templateKey from rfl,if_neg hmem] at hat
  have hc : (T.onTableDelta ts' delta stamp).1.contribution = _ := contribution_applyAsserts _
  refine ⟨⟨hsound,⟨g,hserves.of_group hkeeps.group⟩,⟨n.nodeId,(congrFun hkeeps.fixed sig).trans hfix⟩⟩,hkeeps.grows,
    congrFun hkeeps.status sig,fun pk => ?_,fun hlen pk => ?_⟩
  · exact (hat.recent pk).trans (if_neg fun hcase => absurd hcase.2.2 List.not_mem_nil)
  · exact (congrFun (congrFun hc sig) pk).trans (hat.there hlen pk fun hin => absurd hin List.not_mem_nil)

/-- A new node may share the template, under a bind of its own. -/
lemma alone_collectNode {node' : SubqueryNode} {g' : TemplateGroup} (hnew : T.nodes.get? node'.sig = none)
    (hfree : ∀ g, T.group node'.templateKey = some g → g.binds.get? node'.bind = none) :
    (⟨T,[]⟩ : Draft D).LeavesAlone ⟨T.collectNode node' g',[]⟩ ts sig node := by
  obtain ⟨g,hserves⟩ := h.serves
  obtain ⟨id,hfix⟩ := h.fixed
  have hne : node'.sig ≠ sig := by
    intro heq
    rw [heq] at hnew
    have hfix : T.fixed sig = some (node,id) := hfix
    rw [NodeTier.fixed,hnew] at hfix
    cases hfix
  have hget : (T.collectNode node' g').nodes.get? sig = T.nodes.get? sig := by
    rw [NodeTier.collectNode]
    dsimp only
    rw [AssocMap.get?_insert_eq,if_neg hne]
  have hfixed : (T.collectNode node' g').fixed sig = T.fixed sig := by rw [NodeTier.fixed,NodeTier.fixed,hget]
  refine ⟨⟨Sound.collectNode h.sound hnew hfree,?_,⟨id,hfixed.trans hfix⟩⟩,.refl _,?_,fun pk => ?_,fun _ pk => ?_⟩
  · have hgroup : T.group node.templateKey = some g := hserves.group
    by_cases hkey : node'.templateKey = node.templateKey
    · refine ⟨{ g with binds := g.binds.insert node'.bind node'.sig },?_,hserves.table,hserves.projCol,hserves.pred⟩
      rw [group_collectNode,if_pos hkey,hgroup]
      rfl
    · exact ⟨g,by rw [group_collectNode,if_neg hkey]; exact hgroup,hserves.table,hserves.projCol,hserves.pred⟩
  · rw [NodeTier.status,NodeTier.status,hget]
  · rw [recentOf,recentOf,hget]
  · rw [Draft.contribution,Draft.contribution]
    dsimp only
    rw [hfixed]
    rfl

end

lemma Elsewhere.step (h : Elsewhere ts sig T T') : Step T T' := by
  cases h with
  | collect node g hnew hfree => exact .collect T node g hnew hfree
  | seed ts' sig' rows gate => exact .seed T ts' sig' rows gate
  | delta ts' delta stamp => exact .delta T ts' delta stamp
  | begin sig' => exact .begin T sig'
  | queryBack ts' sig' rows gate => exact .queryBack T ts' sig' rows gate
  | done sig' => exact .done T sig'
  | remove sigs => exact .remove T sigs
  | grow dict h => exact .grow T dict h

theorem Elsewhere.alone (hstep : Elsewhere ts sig T T') (h : (⟨T,[]⟩ : Draft D).Hosts ts sig node) :
    (⟨T,[]⟩ : Draft D).LeavesAlone ⟨T',[]⟩ ts sig node := by
  cases hstep with
  | collect node' g hnew hfree => exact alone_collectNode h hnew hfree
  | seed ts' sig' rows gate hne => exact alone_installSeed h hne rows gate
  | delta ts' delta stamp hne => exact alone_onTableDelta h hne delta stamp
  | begin sig' hne => exact h.alone_editNode hne fun _ => ⟨rfl,rfl⟩
  | queryBack ts' sig' rows gate hne =>
    rw [NodeTier.queryBack]
    cases T.nodes.get? sig' with
    | none => exact h.alone
    | some n => exact alone_applyNodeEvals h hne _
  | done sig' hne => exact h.alone_editNode hne fun _ => ⟨rfl,rfl⟩
  | remove sigs hnot =>
    exact (h.alone_removeNodes (fun _ ha => absurd ha List.not_mem_nil) hnot).applied
  | grow dict hgrows =>
    obtain ⟨g,hserves⟩ := h.serves
    refine ⟨⟨Sound.grow h.sound hgrows,⟨g,hserves.of_group rfl⟩,h.fixed⟩,hgrows,rfl,fun _ => rfl,fun hlen pk => ?_⟩
    rw [Draft.contribution,Draft.contribution]
    refine Option.bind_congr fun x _ => ?_
    exact h.sound.bind_now hgrows hlen x.2 pk

section
variable {ts' : TableSchema} (h : (⟨T,[]⟩ : Draft D).Hosts ts sig node)
include h

/-- A node stays where it is under a change of a table. -/
lemma hosts_onTableDelta (delta : Delta) (stamp : CommitStamp) :
    (⟨(T.onTableDelta ts' delta stamp).1,[]⟩ : Draft D).Hosts ts sig node ∧
      T.pkDict.Grows (T.onTableDelta ts' delta stamp).1.pkDict := by
  have hframe := (Draft.fold_frame (fun _ tkey h => h.changeTemplate_frame stamp ts' delta tkey)
    (T.templatesOf ts'.table) h.sound).2
  obtain ⟨g,hserves⟩ := h.serves
  obtain ⟨id,hfix⟩ := h.fixed
  exact ⟨⟨(Sound.onTableDelta _ h.sound delta stamp).1,⟨g,hserves.of_group hframe.group⟩,
    ⟨id,(congrFun hframe.fixed sig).trans hfix⟩⟩,hframe.grows⟩

/-- So it does when rows of some node are asserted. -/
lemma hosts_applyNodeEvals (sig' : SubquerySig) (evals : List (String × Option Value)) :
    (⟨(T.applyNodeEvals sig' evals).1,[]⟩ : Draft D).Hosts ts sig node ∧
      T.pkDict.Grows (T.applyNodeEvals sig' evals).1.pkDict := by
  have hframe := (Draft.fold_frame (fun _ (e : String × Option Value) h => h.assert_frame sig' e.1 e.2)
    evals h.sound).2
  obtain ⟨g,hserves⟩ := h.serves
  obtain ⟨id,hfix⟩ := h.fixed
  exact ⟨⟨(Sound.applyNodeEvals h.sound sig' evals).1,⟨g,hserves.of_group hframe.group⟩,
    ⟨id,(congrFun hframe.fixed sig).trans hfix⟩⟩,hframe.grows⟩

lemma hosts_queryBack (rows : List Row) (gate : SnapshotGate) :
    (⟨(T.queryBack ts' sig' rows gate).1,[]⟩ : Draft D).Hosts ts sig node ∧
      T.pkDict.Grows (T.queryBack ts' sig' rows gate).1.pkDict := by
  rw [NodeTier.queryBack]
  cases T.nodes.get? sig' with
  | none => exact ⟨h,.refl _⟩
  | some n => exact hosts_applyNodeEvals h sig' _

lemma hosts_editNode (sig' : SubquerySig) {f : LiveNode → LiveNode}
    (hf : ∀ n, (f n).toSubqueryNode = n.toSubqueryNode ∧ (f n).nodeId = n.nodeId) :
    (⟨T.editNode sig' f,[]⟩ : Draft D).Hosts ts sig node := by
  have hframe := (frame_editNode T sig' hf).1
  obtain ⟨g,hserves⟩ := h.serves
  obtain ⟨id,hfix⟩ := h.fixed
  exact ⟨Sound.editNode h.sound sig' hf,⟨g,hserves.of_group hframe.group⟩,⟨id,(congrFun hframe.fixed sig).trans hfix⟩⟩

end

lemma Seen.alone {gate : SnapshotGate} {inflight : ℕ} {recent : String → Option CommitStamp}
    {shown : String → Option Value} (h : T.Seen ts sig node gate inflight recent shown)
    (halone : (⟨T,[]⟩ : Draft D).LeavesAlone ⟨T',[]⟩ ts sig node) (hlen : T'.pkDict.len ≤ 2^32) :
    T'.Seen ts sig node gate inflight recent shown := by
  obtain ⟨id,hst⟩ := h.status
  exact ⟨halone.hosts.serves,⟨id,halone.status.trans hst⟩,fun pk => (halone.recent pk).trans (h.recent pk),
    fun pk => (halone.contribution hlen pk).trans (h.shown pk)⟩

end NodeTier
end ElectricCircuits
