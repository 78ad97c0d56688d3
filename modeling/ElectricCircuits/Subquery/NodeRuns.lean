import ElectricCircuits.Subquery.NodeIndex

/-! The node tier over whole runs: nodes are collected, seeded, changed, re-derived and removed. In every state that is
reached the holders of a row are the nodes that it contributes to, and the flips of a call are what it changes. -/
namespace ElectricCircuits
open MembershipCircuit (asserted)

lemma asserted_of_not_mem {held : PkKey → Option Value} {asserts : List (PkKey × Assert)} {k : PkKey}
    (h : ∀ a ∈ asserts, a.1 ≠ k) : asserted held asserts k = held k := by
  induction asserts generalizing held with
  | nil => rfl
  | cons a asserts ih =>
    obtain ⟨ha,hasserts⟩ := List.forall_mem_cons.mp h
    exact (ih hasserts).trans (if_neg ha)

lemma asserted_deletes (held : PkKey → Option Value) (nodeId : ℕ) (ids : List ℕ) (k : PkKey) :
    asserted held (ids.map fun id => (⟨nodeId,id⟩,.delete)) k =
      if k.id = nodeId ∧ k.pk ∈ ids then none else held k := by
  induction ids generalizing held with
  | nil => simp [asserted]
  | cons id ids ih =>
    rw [List.map_cons]
    change asserted (fun k => if (⟨nodeId,id⟩ : PkKey) = k then none else held k) _ k = _
    rw [ih]
    obtain ⟨kid,kpk⟩ := k
    by_cases hid : kid = nodeId
    · subst hid
      by_cases hpk : kpk = id
      · simp [hpk]
      · simp [hpk,Ne.symm hpk]
    · simp [hid,Ne.symm hid]

namespace NodeTier
variable {D : Dbsp} (T : NodeTier D)

section
variable (tkey : String) (bind : Row)

lemma group_unbind (tkey' : String) : (T.unbind tkey bind).group tkey' =
    if tkey = tkey' then (T.group tkey').bind fun g =>
      if (g.binds.erase bind).isEmpty then none else some { g with binds := g.binds.erase bind }
    else T.group tkey' := by
  rw [unbind]
  cases ht : T.templates.get? tkey with
  | none =>
    split_ifs with heq
    · subst heq
      simp [group,ht]
    · rfl
  | some t =>
    dsimp only
    by_cases hempty : (t.group.binds.erase bind).isEmpty = true
    · rw [if_pos hempty]
      dsimp only [group]
      rw [AssocMap.get?_erase]
      by_cases heq : tkey = tkey'
      · subst heq
        simp [ht,hempty]
      · simp [heq]
    · rw [if_neg hempty]
      dsimp only [group]
      rw [AssocMap.get?_insert_eq]
      by_cases heq : tkey = tkey'
      · subst heq
        simp [ht,hempty]
      · simp [heq]

lemma mem_holders_unbind (tkey' : String) (id : ℕ) (sig : SubquerySig) :
    sig ∈ (T.unbind tkey bind).holders tkey' id ↔
      ((T.unbind tkey bind).group tkey').isSome = true ∧ sig ∈ T.holders tkey' id := by
  have hold : sig ∈ T.holders tkey' id → (T.group tkey').isSome = true := by
    intro h
    rw [holders] at h
    rw [group]
    cases ht : T.templates.get? tkey' with
    | none => simp [ht] at h
    | some t => rfl
  rw [unbind]
  cases ht : T.templates.get? tkey with
  | none => exact (and_iff_right_of_imp hold).symm
  | some t =>
    dsimp only
    by_cases hempty : (t.group.binds.erase bind).isEmpty = true
    · rw [if_pos hempty]
      dsimp only [holders,group]
      rw [AssocMap.get?_erase]
      by_cases heq : tkey = tkey'
      · simp [heq]
      · cases T.templates.get? tkey' <;> simp [heq]
    · rw [if_neg hempty]
      dsimp only [holders,group]
      rw [AssocMap.get?_insert_eq]
      by_cases heq : tkey = tkey'
      · subst heq
        simp [ht]
      · cases T.templates.get? tkey' <;> simp [heq]

lemma other_unbind : (T.unbind tkey bind).nodes = T.nodes ∧ (T.unbind tkey bind).nodeById = T.nodeById ∧
    (T.unbind tkey bind).nextNodeId = T.nextNodeId ∧ (T.unbind tkey bind).circuit = T.circuit ∧
    (T.unbind tkey bind).pkDict = T.pkDict := by
  rw [unbind]
  cases T.templates.get? tkey with
  | none => exact ⟨rfl,rfl,rfl,rfl,rfl⟩
  | some t =>
    dsimp only
    split_ifs <;> exact ⟨rfl,rfl,rfl,rfl,rfl⟩

end

/-- A node is taken out of the holders of some rows. -/
lemma frame_removeHolders (tkey : String) (sig : SubquerySig) (ids : List ℕ) :
    T.Frame (ids.foldl (fun T id => T.editPkNodes tkey (·.remove id sig)) T) ∧
    (T.group tkey ≠ none → ∀ tkey' id' sig',
      (sig' ∈ (ids.foldl (fun T id => T.editPkNodes tkey (·.remove id sig)) T).holders tkey' id' ↔
        ¬(tkey' = tkey ∧ id' ∈ ids ∧ sig' = sig) ∧ sig' ∈ T.holders tkey' id')) := by
  induction ids generalizing T with
  | nil => exact ⟨.refl T,fun _ tkey' id' sig' => by simp⟩
  | cons id ids ih =>
    have hframe := frame_editPkNodes T tkey (·.remove id sig)
    obtain ⟨hframe',hholders⟩ := ih (T.editPkNodes tkey (·.remove id sig))
    refine ⟨hframe.trans hframe',fun hgroup tkey' id' sig' => ?_⟩
    refine (hholders (by rwa [hframe.group]) tkey' id' sig').trans ?_
    rw [mem_holders_remove _ _ _ hgroup,List.mem_cons]
    tauto

end NodeTier

namespace Draft
variable {D : Dbsp} {d : Draft D} {sig : SubquerySig}

/-- What is still on its way to the circuit is about nodes that are gone. -/
def Spent (d : Draft D) : Prop := ∀ a ∈ d.asserts, ∀ sig node, d.tier.fixed sig ≠ some (node,a.1.id)

section
variable {n : LiveNode}

/-- What is left when a node goes. -/
structure Removed (d d' : Draft D) (sig : SubquerySig) (n : LiveNode) : Prop where
  fixed : ∀ sig', d'.tier.fixed sig' = if sig' = sig then none else d.tier.fixed sig'
  nodeById : d'.tier.nodeById = d.tier.nodeById.erase n.nodeId
  nextNodeId : d'.tier.nextNodeId = d.tier.nextNodeId
  circuit : d'.tier.circuit = d.tier.circuit
  grows : d.tier.pkDict.Grows d'.tier.pkDict
  group : ∀ tkey, d'.tier.group tkey = if n.templateKey = tkey then (d.tier.group tkey).bind fun g =>
      if (g.binds.erase n.bind).isEmpty then none else some { g with binds := g.binds.erase n.bind }
    else d.tier.group tkey
  holders : ∀ tkey id sig', sig' ∈ d'.tier.holders tkey id ↔ (d'.tier.group tkey).isSome = true ∧
    ¬(tkey = n.templateKey ∧ (d.now ⟨n.nodeId,id⟩).isSome = true ∧ sig' = sig) ∧ sig' ∈ d.tier.holders tkey id
  now : ∀ k, d'.now k = if k.id = n.nodeId then none else d.now k
  asserts : ∀ a ∈ d'.asserts, a ∈ d.asserts ∨ a.1.id = n.nodeId

/-- What the circuit holds for a node is what its rows contribute, once nothing of the node is on its way. -/
lemma Sound.mem_contributors (h : d.Sound) (hspent : d.Spent) {node : SubqueryNode} {nodeId : ℕ}
    (hfix : d.tier.fixed sig = some (node,nodeId)) (id : ℕ) :
    id ∈ (d.tier.circuit.contributorEntries nodeId).map (·.1) ↔ (d.now ⟨nodeId,id⟩).isSome = true := by
  have hnow : d.now ⟨nodeId,id⟩ = d.tier.circuit.held ⟨nodeId,id⟩ :=
    asserted_of_not_mem fun a ha heq => hspent a ha sig node (by rw [hfix,heq])
  obtain ⟨hin,hout⟩ := h.circuit.contributorEntries nodeId id
  rw [hnow]
  constructor
  · intro hmem
    obtain ⟨⟨id,v⟩,hv,rfl⟩ := List.mem_map.mp hmem
    obtain ⟨w,hw,-⟩ := hin v hv
    rw [hw]
    rfl
  · intro hsome
    obtain ⟨w,hw⟩ := Option.isSome_iff_exists.mp hsome
    obtain ⟨v,-,hv⟩ := hout w hw
    exact List.mem_map.mpr ⟨_,hv,rfl⟩

lemma Sound.removed (h : d.Sound) (hspent : d.Spent) (hn : d.tier.nodes.get? sig = some n) :
    d.Removed (d.removeNode sig) sig n := by
  have hfix := NodeTier.fixed_of_get hn
  obtain ⟨g,hg,-⟩ := h.bound sig _ _ hfix
  have hheld := h.mem_contributors hspent hfix
  rw [removeNode,hn]
  dsimp only
  generalize (d.tier.circuit.contributorEntries n.nodeId).map (·.1) = ids at hheld ⊢
  obtain ⟨hframe,hholders⟩ :=
    NodeTier.frame_removeHolders { d.tier with nodes := d.tier.nodes.erase sig } n.templateKey sig ids
  have hgroup : ∀ tkey, NodeTier.group { d.tier with nodes := d.tier.nodes.erase sig } tkey = d.tier.group tkey :=
    fun _ => rfl
  generalize ids.foldl (fun T id => T.editPkNodes n.templateKey (·.remove id sig))
    { d.tier with nodes := d.tier.nodes.erase sig } = T at hframe hholders ⊢
  obtain ⟨hnodes,hbyId,hnext,hcircuit,hdict⟩ := T.other_unbind n.templateKey n.bind
  refine ⟨fun sig' => ?_,?_,hnext.trans hframe.nextNodeId,hcircuit.trans hframe.circuit,?_,fun tkey => ?_,
    fun tkey id sig' => ?_,fun k => ?_,fun a ha => ?_⟩
  · have hsame : (T.removeNodeEntry n).fixed sig' = T.fixed sig' := by
      rw [NodeTier.fixed,NodeTier.fixed,NodeTier.removeNodeEntry,hnodes]
    dsimp only
    rw [hsame,hframe.fixed,NodeTier.fixed]
    dsimp only
    rw [AssocMap.get?_erase]
    by_cases heq : sig' = sig
    · simp [heq]
    · simp [heq,Ne.symm heq,NodeTier.fixed]
  · change T.nodeById.erase n.nodeId = _
    rw [hframe.nodeById]
  · change d.tier.pkDict.Grows (T.unbind n.templateKey n.bind).pkDict
    rw [hdict]
    exact hframe.grows
  · change (T.unbind n.templateKey n.bind).group tkey = _
    rw [NodeTier.group_unbind,hframe.group,hgroup]
  · change sig' ∈ (T.unbind n.templateKey n.bind).holders tkey id ↔
      ((T.unbind n.templateKey n.bind).group tkey).isSome = true ∧ _
    rw [NodeTier.mem_holders_unbind,hholders (by rw [hgroup,hg]; exact Option.some_ne_none g),hheld]
    rfl
  · change asserted (T.unbind n.templateKey n.bind).circuit.held _ k = _
    rw [hcircuit,hframe.circuit,asserted_append,asserted_deletes]
    change (if k.id = n.nodeId ∧ k.pk ∈ ids then none else d.now k) = _
    by_cases hid : k.id = n.nodeId
    · rw [if_pos hid]
      split_ifs with hmem
      · rfl
      · have hnot : k.pk ∉ ids := fun hin => hmem ⟨hid,hin⟩
        rw [hheld,← hid] at hnot
        exact Option.not_isSome_iff_eq_none.mp hnot
    · rw [if_neg hid,if_neg fun hk => hid hk.1]
  · rcases List.mem_append.mp ha with ha | ha
    · exact .inl ha
    · obtain ⟨id,-,rfl⟩ := List.mem_map.mp ha
      exact .inr rfl

section
variable {d' : Draft D} {sig' : SubquerySig} {node : SubqueryNode} {id : ℕ}

lemma Removed.live (hr : d.Removed d' sig n) :
    d'.tier.fixed sig' = some (node,id) ↔ sig' ≠ sig ∧ d.tier.fixed sig' = some (node,id) := by
  rw [hr.fixed]
  split_ifs with heq <;> simp [heq]

/-- Another node has another id. -/
lemma Sound.id_ne (h : d.Sound) (hn : d.tier.nodes.get? sig = some n) (hne : sig' ≠ sig)
    (hnode : d.tier.fixed sig' = some (node,id)) : id ≠ n.nodeId := by
  rintro rfl
  exact hne (h.id_inj hnode (NodeTier.fixed_of_get hn))

/-- Another node of the template has another bind. -/
lemma Sound.bind_ne (h : d.Sound) (hn : d.tier.nodes.get? sig = some n) (hne : sig' ≠ sig)
    (hnode : d.tier.fixed sig' = some (node,id)) (hkey : n.templateKey = node.templateKey) :
    (n.bind == node.bind) = false := by
  obtain ⟨g,hg,hb⟩ := h.bound sig' node id hnode
  obtain ⟨g',hg',hb'⟩ := h.bound sig _ _ (NodeTier.fixed_of_get hn)
  rw [hkey,hg] at hg'
  obtain rfl := Option.some.inj hg'
  refine Bool.eq_false_of_not_eq_true fun heq => hne ?_
  rw [g.binds.get?_congr heq,hb] at hb'
  exact Option.some.inj hb'

/-- Another node keeps its bind, and by it the template. -/
lemma Removed.bound (hr : d.Removed d' sig n) (h : d.Sound) (hn : d.tier.nodes.get? sig = some n) (hne : sig' ≠ sig)
    (hnode : d.tier.fixed sig' = some (node,id)) :
    ∃ g, d'.tier.group node.templateKey = some g ∧ g.binds.get? node.bind = some sig' := by
  obtain ⟨g,hg,hb⟩ := h.bound sig' node id hnode
  rw [hr.group]
  split_ifs with hkey
  · have hget : (g.binds.erase n.bind).get? node.bind = some sig' := by
      rw [AssocMap.get?_erase,if_neg (by simp [h.bind_ne hn hne hnode hkey]),hb]
    rw [hg]
    refine ⟨_,if_neg ?_,hget⟩
    rw [AssocMap.isEmpty_iff]
    intro hnone
    rw [hnone] at hget
    cases hget
  · exact ⟨g,hg,hb⟩

/-- A bind that is left was there, and is not that of the node. -/
lemma Removed.bind_of_get (hr : d.Removed d' sig n) {tkey : String} {g : TemplateGroup} {b : Row}
    (hg : d'.tier.group tkey = some g) (hb : g.binds.get? b = some sig') : ∃ g₀, d.tier.group tkey = some g₀ ∧
      g₀.binds.get? b = some sig' ∧ (n.templateKey = tkey → (n.bind == b) = false) := by
  rw [hr.group] at hg
  split_ifs at hg with hkey
  · obtain ⟨g₀,hg₀,hg⟩ := Option.bind_eq_some_iff.mp hg
    split_ifs at hg
    obtain rfl := Option.some.inj hg
    rw [AssocMap.get?_erase] at hb
    split_ifs at hb with heq
    exact ⟨g₀,hg₀,hb,fun _ => Bool.eq_false_of_not_eq_true heq⟩
  · exact ⟨g,hg,hb,fun heq => absurd heq hkey⟩

end

/-- A node takes with it what it holds, its id and its bind. -/
lemma Removed.sound {d' : Draft D} (hr : d.Removed d' sig n) (h : d.Sound) (hn : d.tier.nodes.get? sig = some n) :
    d'.Sound := by
  have hfix := NodeTier.fixed_of_get hn
  refine ⟨hr.circuit ▸ h.circuit,fun id sig' => ?_,fun sig' node id hnode => ?_,fun sig' node id hnode => ?_,
    fun tkey g b sig' hg hb => ?_,fun tkey id sig' => ?_,fun k hk => ?_,fun hlen k hk => ?_⟩
  · rw [hr.nodeById,AssocMap.get?_erase]
    simp only [hr.live]
    constructor
    · intro hsig
      split_ifs at hsig with heq
      obtain ⟨node,hnode⟩ := (h.byId id sig').mp hsig
      refine ⟨node,?_,hnode⟩
      rintro rfl
      rw [hfix] at hnode
      exact heq (by rw [(Prod.mk.inj (Option.some.inj hnode)).2]; exact beq_self_eq_true id)
    · rintro ⟨node,hne,hnode⟩
      rw [if_neg fun heq => h.id_ne hn hne hnode (eq_of_beq heq).symm]
      exact (h.byId id sig').mpr ⟨node,hnode⟩
  · rw [hr.nextNodeId]
    exact h.fresh sig' node id (hr.live.mp hnode).2
  · obtain ⟨hne,hnode⟩ := hr.live.mp hnode
    exact hr.bound h hn hne hnode
  · obtain ⟨g₀,hg₀,hb₀,hother⟩ := hr.bind_of_get hg hb
    obtain ⟨node,id,hnode,hkey,hbeq⟩ := h.binds tkey g₀ b sig' hg₀ hb₀
    refine ⟨node,id,hr.live.mpr ⟨?_,hnode⟩,hkey,hbeq⟩
    rintro rfl
    obtain ⟨rfl,-⟩ := Prod.mk.inj (Option.some.inj (hfix.symm.trans hnode))
    rw [hother hkey] at hbeq
    cases hbeq
  · rw [hr.holders,h.index]
    simp only [hr.live,hr.now]
    constructor
    · rintro ⟨-,hnot,node,nodeId,hnode,hkey,hsome⟩
      have hne : sig' ≠ sig := by
        rintro rfl
        obtain ⟨rfl,rfl⟩ := Prod.mk.inj (Option.some.inj (hfix.symm.trans hnode))
        exact hnot ⟨hkey.symm,hsome,rfl⟩
      exact ⟨node,nodeId,⟨hne,hnode⟩,hkey,by rwa [if_neg (h.id_ne hn hne hnode)]⟩
    · rintro ⟨node,nodeId,⟨hne,hnode⟩,hkey,hsome⟩
      rw [if_neg (h.id_ne hn hne hnode)] at hsome
      refine ⟨?_,fun heq => hne heq.2.2,node,nodeId,hnode,hkey,hsome⟩
      -- the bind of the other node keeps the template
      obtain ⟨g,hg,-⟩ := hr.bound h hn hne hnode
      rw [← hkey,hg]
      rfl
  · rw [hr.now] at hk
    split_ifs at hk with heq
    · exact absurd rfl hk
    · obtain ⟨sig',node,hnode⟩ := h.owned k hk
      refine ⟨sig',node,hr.live.mpr ⟨?_,hnode⟩⟩
      rintro rfl
      exact heq (Prod.mk.inj (Option.some.inj (hnode.symm.trans hfix))).2
  · rw [hr.now] at hk
    split_ifs at hk with heq
    · exact absurd rfl hk
    · exact (h.minted (hr.grows.len.trans hlen) k hk).trans_le hr.grows.len

lemma Removed.spent {d' : Draft D} (hr : d.Removed d' sig n) (h : d.Sound) (hspent : d.Spent)
    (hn : d.tier.nodes.get? sig = some n) : d'.Spent := by
  intro a ha sig' node hnode
  rw [hr.fixed] at hnode
  split_ifs at hnode with heq
  rcases hr.asserts a ha with ha | hid
  · exact hspent a ha sig' node hnode
  · rw [hid] at hnode
    exact heq (h.id_inj hnode (NodeTier.fixed_of_get hn))

end

lemma Sound.removeNode (h : d.Sound) (hspent : d.Spent) (sig : SubquerySig) :
    (d.removeNode sig).Sound ∧ (d.removeNode sig).Spent := by
  cases hn : d.tier.nodes.get? sig with
  | none =>
    rw [Draft.removeNode,hn]
    exact ⟨h,hspent⟩
  | some n =>
    have hr := h.removed hspent hn
    exact ⟨hr.sound h hn,hr.spent h hspent hn⟩

end Draft
namespace NodeTier
variable {D : Dbsp} {T T' : NodeTier D}

lemma sound_empty : (empty : NodeTier D).Sound := by
  have hnow : (⟨empty,[]⟩ : Draft D).now = fun _ => none := MembershipCircuit.held_start
  refine ⟨MembershipCircuit.sound_start,fun id sig => ⟨nofun,fun h => ?_⟩,nofun,nofun,nofun,
    fun tkey id sig => ⟨nofun,fun h => ?_⟩,fun k hk => ?_,fun _ k hk => ?_⟩
  · obtain ⟨node,h⟩ := h
    cases h
  · obtain ⟨node,nodeId,h,-⟩ := h
    cases h
  · exact absurd (congrFun hnow k) hk
  · exact absurd (congrFun hnow k) hk

lemma Sound.removeNodes (h : T.Sound) (sigs : List SubquerySig) : (T.removeNodes sigs).Sound := by
  have hall : ∀ d : Draft D, d.Sound → d.Spent → (sigs.foldl Draft.removeNode d).Sound := by
    induction sigs with
    | nil => exact fun d hd _ => hd
    | cons sig sigs ih =>
      intro d hd hspent
      obtain ⟨hd',hspent'⟩ := hd.removeNode hspent sig
      exact ih _ hd' hspent'
  exact sound_applyAsserts (hall ⟨T,[]⟩ h fun _ ha => absurd ha List.not_mem_nil)

section
variable {node : SubqueryNode} {g : TemplateGroup}

lemma fixed_collectNode (T : NodeTier D) (node : SubqueryNode) (g : TemplateGroup) (sig : SubquerySig) :
    (T.collectNode node g).fixed sig = if node.sig = sig then some (node,T.nextNodeId) else T.fixed sig := by
  rw [fixed,collectNode]
  dsimp only
  rw [AssocMap.get?_insert_eq]
  split_ifs <;> rfl

lemma group_collectNode (T : NodeTier D) (node : SubqueryNode) (g : TemplateGroup) (tkey : String) :
    (T.collectNode node g).group tkey = if node.templateKey = tkey then
      let t := (T.group tkey).getD { g with binds := .empty }
      some { t with binds := t.binds.insert node.bind node.sig }
    else T.group tkey := by
  rw [group,collectNode]
  dsimp only
  rw [AssocMap.get?_insert_eq]
  split_ifs with heq
  · subst heq
    rw [group]
    cases T.templates.get? node.templateKey <;> rfl
  · rfl

lemma holders_collectNode (T : NodeTier D) (node : SubqueryNode) (g : TemplateGroup) :
    (T.collectNode node g).holders = T.holders := by
  funext tkey id
  rw [holders,holders,collectNode]
  dsimp only
  rw [AssocMap.get?_insert_eq]
  split_ifs with heq
  · subst heq
    cases T.templates.get? node.templateKey <;> rfl
  · rfl

/-- A new node takes an id that no node had. -/
lemma Sound.ne_collected (h : T.Sound) (hnew : T.nodes.get? node.sig = none) {sig : SubquerySig}
    {node' : SubqueryNode} {id : ℕ} (hnode : T.fixed sig = some (node',id)) : node.sig ≠ sig ∧ id ≠ T.nextNodeId := by
  refine ⟨?_,(h.fresh sig node' id hnode).ne⟩
  rintro rfl
  rw [fixed,hnew] at hnode
  cases hnode

/-- The others keep their binds, as the new node has none of them. -/
lemma Sound.bound_collectNode (h : T.Sound)
    (hfree : ∀ g, T.group node.templateKey = some g → g.binds.get? node.bind = none) {sig : SubquerySig}
    {node' : SubqueryNode} {id : ℕ} (hnode : (T.collectNode node g).fixed sig = some (node',id)) :
    ∃ g', (T.collectNode node g).group node'.templateKey = some g' ∧ g'.binds.get? node'.bind = some sig := by
  rw [fixed_collectNode] at hnode
  rw [group_collectNode]
  split_ifs at hnode with hs
  · subst hs
    obtain ⟨rfl,-⟩ := Prod.mk.inj (Option.some.inj hnode)
    exact ⟨_,if_pos rfl,AssocMap.get?_insert_self ..⟩
  · obtain ⟨g',hg',hb⟩ := h.bound sig node' id hnode
    split_ifs with hkey
    · rw [hg']
      refine ⟨_,rfl,?_⟩
      dsimp only [Option.getD_some]
      rw [AssocMap.get?_insert,if_neg]
      · exact hb
      · intro heq
        have hfree := hfree g' (hkey ▸ hg')
        rw [g'.binds.get?_congr heq,hb] at hfree
        cases hfree
    · exact ⟨g',hg',hb⟩

/-- A bind is that of the new node, or was there. -/
lemma bind_of_collectNode {tkey : String} {g' : TemplateGroup} {b : Row} {sig : SubquerySig}
    (hg : (T.collectNode node g).group tkey = some g') (hb : g'.binds.get? b = some sig) :
    (node.templateKey = tkey ∧ (node.bind == b) = true ∧ node.sig = sig) ∨
      ∃ g₀, T.group tkey = some g₀ ∧ g₀.binds.get? b = some sig := by
  rw [group_collectNode] at hg
  split_ifs at hg with hkey
  · obtain rfl := Option.some.inj hg
    dsimp only at hb
    rw [AssocMap.get?_insert] at hb
    split_ifs at hb with heq
    · exact .inl ⟨hkey,heq,Option.some.inj hb⟩
    · cases hgroup : T.group tkey with
      | none =>
        rw [hgroup] at hb
        cases hb
      | some g₀ =>
        rw [hgroup] at hb
        exact .inr ⟨g₀,rfl,hb⟩
  · exact .inr ⟨g',hg,hb⟩

/-- A new node takes an id that no node had, and a bind that no node has. -/
lemma Sound.collectNode (h : T.Sound) (hnew : T.nodes.get? node.sig = none)
    (hfree : ∀ g, T.group node.templateKey = some g → g.binds.get? node.bind = none) :
    (T.collectNode node g).Sound := by
  have hheld : ∀ id, T.circuit.held ⟨T.nextNodeId,id⟩ = none := by
    intro id
    by_contra hne
    obtain ⟨sig,node',hnode⟩ := h.owned _ hne
    exact (h.ne_collected hnew hnode).2 rfl
  refine ⟨h.circuit,fun id sig => ?_,fun sig node' id hnode => ?_,fun sig node' id hnode => ?_,
    fun tkey g' b sig hg hb => ?_,fun tkey id sig => ?_,fun k hk => ?_,h.minted⟩
  · change (T.nodeById.insert T.nextNodeId node.sig).get? id = some sig ↔ _
    rw [AssocMap.get?_insert_eq]
    simp only [fixed_collectNode]
    split_ifs with hi hs hs
    · subst hi hs
      exact iff_of_true rfl ⟨node,rfl⟩
    · refine iff_of_false (fun heq => hs (Option.some.inj heq)) ?_
      rintro ⟨node',hnode⟩
      exact (h.ne_collected hnew hnode).2 hi.symm
    · refine iff_of_false (fun hsig => ?_) ?_
      · obtain ⟨node',hnode⟩ := (h.byId id sig).mp hsig
        exact (h.ne_collected hnew hnode).1 hs
      · rintro ⟨node',hnode⟩
        exact hi (Prod.mk.inj (Option.some.inj hnode)).2
    · exact h.byId id sig
  · change id < T.nextNodeId+1
    rw [fixed_collectNode] at hnode
    split_ifs at hnode with hs
    · rw [← (Prod.mk.inj (Option.some.inj hnode)).2]
      exact Nat.lt_succ_self _
    · exact Nat.lt_succ_of_lt (h.fresh sig node' id hnode)
  · exact h.bound_collectNode hfree hnode
  · simp only [fixed_collectNode]
    obtain ⟨hkey,hbeq,hs⟩ | ⟨g₀,hg₀,hb₀⟩ := bind_of_collectNode hg hb
    · exact ⟨node,T.nextNodeId,if_pos hs,hkey,hbeq⟩
    · obtain ⟨node',id,hnode,hkey,hbeq⟩ := h.binds tkey g₀ b sig hg₀ hb₀
      exact ⟨node',id,by rw [if_neg (h.ne_collected hnew hnode).1]; exact hnode,hkey,hbeq⟩
  · change sig ∈ (T.collectNode node g).holders tkey id ↔ _
    rw [holders_collectNode]
    refine (h.index tkey id sig).trans ?_
    simp only [fixed_collectNode]
    constructor
    · rintro ⟨node',nodeId,hnode,hkey,hsome⟩
      exact ⟨node',nodeId,by rw [if_neg (h.ne_collected hnew hnode).1]; exact hnode,hkey,hsome⟩
    · rintro ⟨node',nodeId,hnode,hkey,hsome⟩
      split_ifs at hnode with hs
      · obtain ⟨-,rfl⟩ := Prod.mk.inj (Option.some.inj hnode)
        rw [show (⟨T.collectNode node g,[]⟩ : Draft D).now ⟨T.nextNodeId,id⟩ = none from hheld id] at hsome
        cases hsome
      · exact ⟨node',nodeId,hnode,hkey,hsome⟩
  · obtain ⟨sig,node',hnode⟩ := h.owned k hk
    refine ⟨sig,node',?_⟩
    rw [fixed_collectNode,if_neg (h.ne_collected hnew hnode).1]
    exact hnode

end

/-- What is called of the tier. A node is collected when its query is not there, under a bind that no node has. -/
inductive Step : NodeTier D → NodeTier D → Prop
  | collect (T : NodeTier D) (node : SubqueryNode) (g : TemplateGroup) (hnew : T.nodes.get? node.sig = none)
    (hfree : ∀ g, T.group node.templateKey = some g → g.binds.get? node.bind = none) : Step T (T.collectNode node g)
  | seed (T : NodeTier D) (ts : TableSchema) (sig : SubquerySig) (rows : List Row) (gate : SnapshotGate) :
    Step T (T.installSeed ts sig rows gate).1
  | delta (T : NodeTier D) (ts : TableSchema) (delta : Delta) (stamp : CommitStamp) :
    Step T (T.onTableDelta ts delta stamp).1
  | begin (T : NodeTier D) (sig : SubquerySig) : Step T (T.beginNodeQueryback sig)
  | queryBack (T : NodeTier D) (ts : TableSchema) (sig : SubquerySig) (rows : List Row) (gate : SnapshotGate) :
    Step T (T.queryBack ts sig rows gate).1
  | done (T : NodeTier D) (sig : SubquerySig) : Step T (T.endNodeQueryback sig)
  | remove (T : NodeTier D) (sigs : List SubquerySig) : Step T (T.removeNodes sigs)
  | grow (T : NodeTier D) (dict : PkDict) (h : T.pkDict.Grows dict) : Step T { T with pkDict := dict }

inductive Reachable : NodeTier D → Prop
  | start : Reachable empty
  | step {T T' : NodeTier D} : Reachable T → Step T T' → Reachable T'

theorem Step.sound (hstep : Step T T') (h : T.Sound) : T'.Sound := by
  cases hstep with
  | collect node g hnew hfree => exact h.collectNode hnew hfree
  | seed ts sig rows gate => exact h.installSeed sig rows gate
  | delta ts delta stamp => exact (h.onTableDelta _ delta stamp).1
  | begin sig => exact h.editNode sig fun _ => ⟨rfl,rfl⟩
  | queryBack ts sig rows gate => exact (h.queryBack sig rows gate).1
  | done sig => exact h.editNode sig fun _ => ⟨rfl,rfl⟩
  | remove sigs => exact h.removeNodes sigs
  | grow dict hgrows => exact h.grow hgrows

theorem Reachable.sound (h : Reachable T) : T.Sound := by
  induction h with
  | start => exact sound_empty
  | step _ hstep ih => exact hstep.sound ih

/-- In every state the holders of a row are exactly the nodes of the template that the circuit has it contribute to, a
value is in a set exactly if a row that holds it there contributes it, and a change of a table and a query-back give
out exactly what they change of the sets. -/
theorem Reachable.index_exact (h : Reachable T) :
    (∀ tkey id sig, sig ∈ T.holders tkey id ↔ ∃ n, T.nodes.get? sig = some n ∧ n.templateKey = tkey ∧
      (T.circuit.held ⟨n.nodeId,id⟩).isSome = true) ∧
    (∀ sig v, T.sets sig v = true ↔ ∃ n id w, T.nodes.get? sig = some n ∧ sig ∈ T.holders n.templateKey id ∧
      T.circuit.held ⟨n.nodeId,id⟩ = some w ∧ w.eqv v = true) ∧
    (∀ ts delta stamp, FlipsOf T.sets (T.onTableDelta ts delta stamp).1.sets (T.onTableDelta ts delta stamp).2) ∧
    ∀ ts sig rows gate, FlipsOf T.sets (T.queryBack ts sig rows gate).1.sets (T.queryBack ts sig rows gate).2 := by
  have hsound := h.sound
  have hindex : ∀ tkey id sig, sig ∈ T.holders tkey id ↔ ∃ n, T.nodes.get? sig = some n ∧ n.templateKey = tkey ∧
      (T.circuit.held ⟨n.nodeId,id⟩).isSome = true := by
    intro tkey id sig
    refine (hsound.index tkey id sig).trans ?_
    constructor
    · rintro ⟨node,nodeId,hnode,hkey,hsome⟩
      obtain ⟨n,hn,heq⟩ := Option.map_eq_some_iff.mp hnode
      obtain ⟨rfl,rfl⟩ := Prod.mk.inj heq
      exact ⟨n,hn,hkey,hsome⟩
    · rintro ⟨n,hn,hkey,hsome⟩
      exact ⟨_,_,fixed_of_get hn,hkey,hsome⟩
  refine ⟨hindex,fun sig v => ?_,fun ts delta stamp => (hsound.onTableDelta _ delta stamp).2,
    fun ts sig rows gate => (hsound.queryBack sig rows gate).2⟩
  rw [sets]
  constructor
  · intro hv
    obtain ⟨n,hn,hv⟩ := (Option.any_eq_true ..).mp hv
    obtain ⟨id,w,hw,hwv⟩ := (hsound.circuit.contains_iff n.nodeId v).mp hv
    exact ⟨n,id,w,hn,(hindex _ _ _).mpr ⟨n,hn,rfl,by rw [hw]; rfl⟩,hw,hwv⟩
  · rintro ⟨n,id,w,hn,-,hw,hwv⟩
    rw [hn]
    exact (hsound.circuit.contains_iff n.nodeId v).mpr ⟨id,w,hw,hwv⟩

/-- The node of the issues of one level. -/
def sampleNode (sig : SubquerySig) (level : ℤ) : SubqueryNode :=
  ⟨sig,"issues",0,.cmp 1 .eq (.int level),"t",⟨[.int level]⟩⟩

def sampleGroup : TemplateGroup := ⟨"issues",0,.matchAll,[1],.empty⟩

/-- Two levels under one template, with an issue that is of the first. -/
def sampleSeeded : NodeTier Dbsp.whole :=
  let low := ((empty.collectNode (sampleNode "low" 3) sampleGroup).installSeed TableSchema.sample "low"
    [⟨[.int 7,.int 3]⟩] ⟨0,10,10,[]⟩).1
  ((low.collectNode (sampleNode "high" 4) sampleGroup).installSeed TableSchema.sample "high" [] ⟨0,10,10,[]⟩).1

/-- The issue moves from one level to the other. -/
def sampleMoved : NodeTier Dbsp.whole × List (SubquerySig × Flip) :=
  sampleSeeded.onTableDelta TableSchema.sample [(⟨[.int 7,.int 3]⟩,-1),(⟨[.int 7,.int 4]⟩,1)] (5,some 15)

/-- And the node that it left is removed. -/
def sampleNodes : NodeTier Dbsp.whole := sampleMoved.1.removeNodes ["low"]

lemma reachable_sampleSeeded : sampleSeeded.Reachable := by
  refine .step (.step (.step (.step .start (.collect _ _ _ rfl ?_)) (.seed _ _ _ _ _))
    (.collect _ _ _ (by decide +kernel) ?_)) (.seed _ _ _ _ _)
  · intro g hg
    cases hg
  · intro g hg
    have hall : ((((empty : NodeTier Dbsp.whole).collectNode (sampleNode "low" 3) sampleGroup).installSeed
        TableSchema.sample "low" [⟨[.int 7,.int 3]⟩] ⟨0,10,10,[]⟩).1.group "t").all
        (fun g => (g.binds.get? ⟨[.int 4]⟩).isNone) = true := by decide +kernel
    exact Option.isNone_iff_eq_none.mp ((Option.all_eq_true _ _).mp hall g hg)

/-- The issue is where it moved to, in the index and in the set, and the move was given out. -/
theorem sample_index_exact :
    (∃ n id w, sampleNodes.nodes.get? "high" = some n ∧ "high" ∈ sampleNodes.holders n.templateKey id ∧
      sampleNodes.circuit.held ⟨n.nodeId,id⟩ = some w ∧ w.eqv (.int 7) = true) ∧
    (∀ id, "low" ∉ sampleNodes.holders "t" id) ∧
    FlipsOf sampleSeeded.sets sampleMoved.1.sets sampleMoved.2 ∧
    sampleMoved.2.map (fun f => (f.1,f.2.dir)) = [("low",.leave),("high",.enter)] := by
  have hmoved : sampleMoved.1.Reachable := .step reachable_sampleSeeded (.delta _ _ _ _)
  have hnodes : sampleNodes.Reachable := .step hmoved (.remove _ _)
  obtain ⟨hindex,hsets,-,-⟩ := hnodes.index_exact
  obtain ⟨-,-,hflips,-⟩ := reachable_sampleSeeded.index_exact
  refine ⟨(hsets "high" (.int 7)).mp (by decide +kernel),fun id hmem => ?_,hflips _ _ _,by decide +kernel⟩
  obtain ⟨n,hn,-⟩ := (hindex "t" id "low").mp hmem
  have hnone : (sampleNodes.nodes.get? "low").isNone = true := by decide +kernel
  rw [hn] at hnone
  cases hnone

end NodeTier
end ElectricCircuits
