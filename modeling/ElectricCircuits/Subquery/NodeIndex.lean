import ElectricCircuits.Subquery.NodeTier

/-! What the node tier keeps, whatever it is called for: the holders of a row are the nodes that it contributes to,
nodes and their ids and binds go together, and every batch gives out exactly the flips of its nodes. -/
namespace ElectricCircuits

namespace PkDict

/-- The dictionary has lost nothing. -/
structure Grows (d d' : PkDict) : Prop where
  len : d.len ≤ d'.len
  get : d'.len ≤ 2^32 → ∀ pk id, d.get pk = some id → d'.get pk = some id

lemma Grows.refl (d : PkDict) : d.Grows d := ⟨Nat.le_refl _,fun _ _ _ h => h⟩

lemma Grows.trans {d d' d'' : PkDict} (h : d.Grows d') (h' : d'.Grows d'') : d.Grows d'' where
  len := h.len.trans h'.len
  get hlen pk id hid := h'.get hlen pk id (h.get (h'.len.trans hlen) pk id hid)

lemma grows_getOrInsert (d : PkDict) (pk : String) : d.Grows (d.getOrInsert pk).2 := by
  rw [getOrInsert_eq]
  exact ⟨d.len_le_mint pk,fun _ _ _ hid => get_mint hid⟩

lemma get_getOrInsert (d : PkDict) (pk : String) : (d.getOrInsert pk).2.get pk = some (d.getOrInsert pk).1 := by
  rw [getOrInsert_eq]
  exact get_mint_self d pk

end PkDict

open MembershipCircuit (asserted)

lemma asserted_append (held : PkKey → Option Value) (as bs : List (PkKey × Assert)) :
    asserted held (as ++ bs) = asserted (asserted held as) bs := List.foldl_append

namespace NodeTier
variable {D : Dbsp} {T T' : NodeTier D}

/-- A node with its id, as far as it stays the same. -/
def fixed (T : NodeTier D) (sig : SubquerySig) : Option (SubqueryNode × ℕ) :=
  (T.nodes.get? sig).map fun n => (n.toSubqueryNode,n.nodeId)

lemma fixed_of_get {sig : SubquerySig} {n : LiveNode} (h : T.nodes.get? sig = some n) :
    T.fixed sig = some (n.toSubqueryNode,n.nodeId) := by rw [fixed,h]; rfl

/-- Nodes and templates are the same, and the circuit; the dictionary may have grown. -/
structure Frame (T T' : NodeTier D) : Prop where
  fixed : T'.fixed = T.fixed
  nodeById : T'.nodeById = T.nodeById
  nextNodeId : T'.nextNodeId = T.nextNodeId
  group : T'.group = T.group
  circuit : T'.circuit = T.circuit
  grows : T.pkDict.Grows T'.pkDict

lemma Frame.refl (T : NodeTier D) : T.Frame T := ⟨rfl,rfl,rfl,rfl,rfl,.refl _⟩

lemma Frame.trans {T'' : NodeTier D} (h : T.Frame T') (h' : T'.Frame T'') : T.Frame T'' where
  fixed := h'.fixed.trans h.fixed
  nodeById := h'.nodeById.trans h.nodeById
  nextNodeId := h'.nextNodeId.trans h.nextNodeId
  group := h'.group.trans h.group
  circuit := h'.circuit.trans h.circuit
  grows := h.grows.trans h'.grows

lemma sets_eq (T : NodeTier D) (sig : SubquerySig) (v : Value) :
    T.sets sig v = (T.fixed sig).any fun x => T.circuit.contains x.2 v := by
  rw [sets,fixed,Option.any_map]

lemma Frame.sets (h : T.Frame T') : T'.sets = T.sets := by
  funext sig v
  rw [sets_eq,sets_eq,h.fixed,h.circuit]

section
variable (T) (sig sig' : SubquerySig) {f : LiveNode → LiveNode}

lemma get_editNode : (T.editNode sig f).nodes.get? sig' =
    if sig = sig' then (T.nodes.get? sig').map f else T.nodes.get? sig' := by
  rw [editNode]
  cases hn : T.nodes.get? sig with
  | none =>
    split_ifs with heq
    · subst heq
      rw [hn]
      rfl
    · rfl
  | some n =>
    dsimp only
    rw [AssocMap.get?_insert_eq]
    split_ifs with heq
    · subst heq
      rw [hn]
      rfl
    · rfl

/-- What changes how a node is at work leaves the tier's structure. -/
lemma frame_editNode (hf : ∀ n, (f n).toSubqueryNode = n.toSubqueryNode ∧ (f n).nodeId = n.nodeId) :
    T.Frame (T.editNode sig f) ∧ (T.editNode sig f).holders = T.holders ∧
      (T.editNode sig f).pkDict = T.pkDict := by
  have hfixed : (T.editNode sig f).fixed = T.fixed := by
    funext sig'
    rw [fixed,fixed,get_editNode]
    split_ifs with heq
    · subst heq
      rw [Option.map_map]
      refine congrArg (fun g => Option.map g _) (funext fun n => ?_)
      exact Prod.ext (hf n).1 (hf n).2
    · rfl
  rw [editNode] at hfixed ⊢
  cases hn : T.nodes.get? sig with
  | none => exact ⟨.refl T,rfl,rfl⟩
  | some n =>
    rw [hn] at hfixed
    exact ⟨⟨hfixed,rfl,rfl,rfl,rfl,.refl _⟩,rfl,rfl⟩

end

section
variable (T) (tkey tkey' : String) (g : PkNodes → PkNodes)

lemma frame_editPkNodes : T.Frame (T.editPkNodes tkey g) := by
  rw [editPkNodes]
  cases ht : T.templates.get? tkey with
  | none => exact .refl T
  | some t =>
    refine ⟨rfl,rfl,rfl,?_,rfl,.refl _⟩
    funext tkey'
    dsimp only [group]
    rw [AssocMap.get?_insert_eq]
    split_ifs with heq
    · subst heq
      rw [ht]
      rfl
    · rfl

lemma nodes_editPkNodes : (T.editPkNodes tkey g).nodes = T.nodes := by
  rw [editPkNodes]
  cases T.templates.get? tkey <;> rfl

lemma pkDict_editPkNodes : (T.editPkNodes tkey g).pkDict = T.pkDict := by
  rw [editPkNodes]
  cases T.templates.get? tkey <;> rfl

lemma holders_editPkNodes (id : ℕ) (h : T.group tkey ≠ none) : (T.editPkNodes tkey g).holders tkey' id =
    if tkey = tkey' then (((T.templates.get? tkey).map fun t => g t.pkNodes).getD .empty).holders id
    else T.holders tkey' id := by
  rw [editPkNodes]
  cases ht : T.templates.get? tkey with
  | none => simp [group,ht] at h
  | some t =>
    dsimp only [holders]
    rw [AssocMap.get?_insert_eq]
    split_ifs <;> rfl

variable {sig sig' : SubquerySig} {id id' : ℕ}

lemma mem_holders_add (h : T.group tkey ≠ none) : sig' ∈ (T.editPkNodes tkey (·.add id sig)).holders tkey' id' ↔
    tkey' = tkey ∧ id' = id ∧ sig' = sig ∨ sig' ∈ T.holders tkey' id' := by
  rw [holders_editPkNodes _ _ _ _ _ h]
  split_ifs with heq
  · subst heq
    cases ht : T.templates.get? tkey with
    | none => simp [group,ht] at h
    | some t => simp [holders,ht,PkNodes.mem_holders_add]
  · simp [Ne.symm heq]

lemma mem_holders_remove (h : T.group tkey ≠ none) :
    sig' ∈ (T.editPkNodes tkey (·.remove id sig)).holders tkey' id' ↔
      ¬(tkey' = tkey ∧ id' = id ∧ sig' = sig) ∧ sig' ∈ T.holders tkey' id' := by
  rw [holders_editPkNodes _ _ _ _ _ h]
  split_ifs with heq
  · subst heq
    cases ht : T.templates.get? tkey with
    | none => simp [group,ht] at h
    | some t => simp [holders,ht,PkNodes.mem_holders_remove]
  · simp [Ne.symm heq]

end

end NodeTier

namespace Draft
variable {D : Dbsp} {d d' : Draft D} {sig : SubquerySig} {pk : String} {present : Option Value}

/-- What the keys come to hold. -/
def now (d : Draft D) : PkKey → Option Value := asserted d.tier.circuit.held d.asserts

structure Sound (d : Draft D) : Prop where
  circuit : d.tier.circuit.Sound
  byId : ∀ id sig, d.tier.nodeById.get? id = some sig ↔ ∃ node, d.tier.fixed sig = some (node,id)
  fresh : ∀ sig node id, d.tier.fixed sig = some (node,id) → id < d.tier.nextNodeId
  bound : ∀ sig node id, d.tier.fixed sig = some (node,id) →
    ∃ g, d.tier.group node.templateKey = some g ∧ g.binds.get? node.bind = some sig
  binds : ∀ tkey g b sig, d.tier.group tkey = some g → g.binds.get? b = some sig →
    ∃ node id, d.tier.fixed sig = some (node,id) ∧ node.templateKey = tkey ∧ (node.bind == b) = true
  /-- The holders of a row are exactly the nodes that it comes to contribute to. -/
  index : ∀ tkey id sig, sig ∈ d.tier.holders tkey id ↔
    ∃ node nodeId, d.tier.fixed sig = some (node,nodeId) ∧ node.templateKey = tkey ∧
      (d.now ⟨nodeId,id⟩).isSome = true
  owned : ∀ k, d.now k ≠ none → ∃ sig node, d.tier.fixed sig = some (node,k.id)
  minted : d.tier.pkDict.len ≤ 2^32 → ∀ k, d.now k ≠ none → k.pk < d.tier.pkDict.len

/-- An id is that of one node. -/
lemma Sound.id_inj (h : d.Sound) {sig sig' : SubquerySig} {node node' : SubqueryNode} {id : ℕ}
    (hn : d.tier.fixed sig = some (node,id)) (hn' : d.tier.fixed sig' = some (node',id)) : sig = sig' :=
  Option.some.inj (((h.byId id sig).mpr ⟨node,hn⟩).symm.trans ((h.byId id sig').mpr ⟨node',hn'⟩))

/-- What is changed of the tier apart from its structure and its holders. -/
lemma Sound.frame {T : NodeTier D} (h : d.Sound) (hframe : d.tier.Frame T) (hholders : T.holders = d.tier.holders) :
    (⟨T,d.asserts⟩ : Draft D).Sound := by
  have hnow : (⟨T,d.asserts⟩ : Draft D).now = d.now := by rw [now,now,hframe.circuit]
  refine ⟨hframe.circuit ▸ h.circuit,?_,?_,?_,?_,?_,?_,fun hlen k hk => ?_⟩
  · rw [hframe.nodeById,hframe.fixed]
    exact h.byId
  · rw [hframe.nextNodeId,hframe.fixed]
    exact h.fresh
  · rw [hframe.group,hframe.fixed]
    exact h.bound
  · rw [hframe.group,hframe.fixed]
    exact h.binds
  · rw [hnow,hholders,hframe.fixed]
    exact h.index
  · rw [hnow,hframe.fixed]
    exact h.owned
  · rw [hnow] at hk
    exact (h.minted (hframe.grows.len.trans hlen) k hk).trans_le hframe.grows.len

lemma assert_of_none (hn : d.tier.nodes.get? sig = none) : d.assert sig pk present = d := by
  rw [assert,NodeTier.assertNodeRow,hn]
  exact congrArg (Draft.mk d.tier) (List.append_nil _)

section
variable {n : LiveNode}

lemma assert_present (hn : d.tier.nodes.get? sig = some n) (v : Value) : d.assert sig pk (some v) =
    ⟨(d.tier.intern pk).editPkNodes n.templateKey (·.add (d.tier.pkDict.getOrInsert pk).1 sig),
      d.asserts ++ [(⟨n.nodeId,(d.tier.pkDict.getOrInsert pk).1⟩,.insert v)]⟩ := by
  rw [assert,NodeTier.assertNodeRow,hn]
  rfl

lemma assert_gone (hn : d.tier.nodes.get? sig = some n) : d.assert sig pk none =
    ⟨(d.tier.intern pk).editPkNodes n.templateKey (·.remove (d.tier.pkDict.getOrInsert pk).1 sig),
      d.asserts ++ if sig ∈ d.tier.holders n.templateKey (d.tier.pkDict.getOrInsert pk).1 then
        [(⟨n.nodeId,(d.tier.pkDict.getOrInsert pk).1⟩,.delete)] else []⟩ := by
  rw [assert,NodeTier.assertNodeRow,hn]
  dsimp only
  split_ifs <;> rfl

lemma frame_intern (T : NodeTier D) (pk : String) : T.Frame (T.intern pk) :=
  ⟨rfl,rfl,rfl,rfl,rfl,PkDict.grows_getOrInsert _ pk⟩

lemma frame_assert (d : Draft D) (sig : SubquerySig) (pk : String) (present : Option Value) :
    d.tier.Frame (d.assert sig pk present).tier ∧ (d.assert sig pk present).tier.nodes = d.tier.nodes := by
  cases hn : d.tier.nodes.get? sig with
  | none =>
    rw [assert_of_none hn]
    exact ⟨.refl _,rfl⟩
  | some n =>
    cases present with
    | some v =>
      rw [assert_present hn]
      dsimp only
      exact ⟨(frame_intern d.tier pk).trans (NodeTier.frame_editPkNodes ..),NodeTier.nodes_editPkNodes ..⟩
    | none =>
      rw [assert_gone hn]
      dsimp only
      exact ⟨(frame_intern d.tier pk).trans (NodeTier.frame_editPkNodes ..),NodeTier.nodes_editPkNodes ..⟩

lemma pkDict_assert (hn : d.tier.nodes.get? sig = some n) :
    (d.assert sig pk present).tier.pkDict = (d.tier.pkDict.getOrInsert pk).2 := by
  cases present with
  | some v =>
    rw [assert_present hn]
    exact NodeTier.pkDict_editPkNodes ..
  | none =>
    rw [assert_gone hn]
    exact NodeTier.pkDict_editPkNodes ..

/-- A retraction that is left out would have retracted nothing. -/
lemma Sound.now_assert (h : d.Sound) (hn : d.tier.nodes.get? sig = some n) (k : PkKey) :
    (d.assert sig pk present).now k =
      if k = ⟨n.nodeId,(d.tier.pkDict.getOrInsert pk).1⟩ then present else d.now k := by
  rw [now,(frame_assert d sig pk present).1.circuit]
  cases present with
  | some v =>
    rw [assert_present hn,asserted_append]
    exact if_congr eq_comm rfl rfl
  | none =>
    rw [assert_gone hn,asserted_append]
    split_ifs with hmem hk hk
    · exact if_pos hk.symm
    · exact if_neg fun heq => hk heq.symm
    · change d.now k = none
      by_contra hne
      subst hk
      refine hmem ((h.index n.templateKey _ sig).mpr ⟨_,_,NodeTier.fixed_of_get hn,rfl,?_⟩)
      exact Option.isSome_iff_ne_none.mpr hne
    · rfl

lemma Sound.mem_holders_assert (h : d.Sound) (hn : d.tier.nodes.get? sig = some n) (tkey : String) (id : ℕ)
    (sig' : SubquerySig) : sig' ∈ (d.assert sig pk present).tier.holders tkey id ↔
      if tkey = n.templateKey ∧ id = (d.tier.pkDict.getOrInsert pk).1 ∧ sig' = sig then present.isSome = true
      else sig' ∈ d.tier.holders tkey id := by
  obtain ⟨g,hg,-⟩ := h.bound sig _ _ (NodeTier.fixed_of_get hn)
  have hgroup : (d.tier.intern pk).group n.templateKey ≠ none := Option.ne_none_iff_exists'.mpr ⟨g,hg⟩
  cases present with
  | some v =>
    rw [assert_present hn,NodeTier.mem_holders_add _ _ _ hgroup]
    split_ifs with hkey
    · exact iff_of_true (.inl hkey) rfl
    · exact or_iff_right hkey
  | none =>
    rw [assert_gone hn,NodeTier.mem_holders_remove _ _ _ hgroup]
    split_ifs with hkey
    · exact iff_of_false (fun hmem => hmem.1 hkey) Bool.false_ne_true
    · exact and_iff_right hkey

end

/-- The holders follow what is asserted. -/
lemma Sound.assert (h : d.Sound) (sig : SubquerySig) (pk : String) (present : Option Value) :
    (d.assert sig pk present).Sound := by
  cases hn : d.tier.nodes.get? sig with
  | none => rwa [assert_of_none hn]
  | some n =>
    have hframe := (frame_assert d sig pk present).1
    have hfix := NodeTier.fixed_of_get hn
    refine ⟨hframe.circuit ▸ h.circuit,?_,?_,?_,?_,fun tkey id sig' => ?_,fun k hk => ?_,fun hlen k hk => ?_⟩
    · rw [hframe.nodeById,hframe.fixed]
      exact h.byId
    · rw [hframe.nextNodeId,hframe.fixed]
      exact h.fresh
    · rw [hframe.group,hframe.fixed]
      exact h.bound
    · rw [hframe.group,hframe.fixed]
      exact h.binds
    · rw [h.mem_holders_assert hn,hframe.fixed]
      simp only [h.now_assert hn]
      split_ifs with hkey
      · obtain ⟨rfl,rfl,rfl⟩ := hkey
        constructor
        · exact fun hp => ⟨_,_,hfix,rfl,by rwa [if_pos rfl]⟩
        · rintro ⟨node,nodeId,hnode,-,hp⟩
          obtain ⟨-,rfl⟩ := Prod.mk.inj (Option.some.inj (hfix.symm.trans hnode))
          rwa [if_pos rfl] at hp
      · rw [h.index]
        refine exists_congr fun node => exists_congr fun nodeId => and_congr_right fun hnode =>
          and_congr_right fun hkeyof => ?_
        rw [if_neg]
        rintro heq
        obtain ⟨rfl,rfl⟩ := PkKey.mk.inj heq
        obtain rfl := h.id_inj hnode hfix
        obtain ⟨rfl,-⟩ := Prod.mk.inj (Option.some.inj (hfix.symm.trans hnode))
        exact hkey ⟨hkeyof.symm,rfl,rfl⟩
    · rw [h.now_assert hn] at hk
      rw [hframe.fixed]
      split_ifs at hk with hkey
      · exact ⟨sig,_,by rw [hfix,hkey]⟩
      · exact h.owned k hk
    · rw [h.now_assert hn] at hk
      split_ifs at hk with hkey
      · rw [hkey,pkDict_assert hn]
        rw [pkDict_assert hn] at hlen
        exact PkDict.lt_len hlen (PkDict.get_getOrInsert _ pk)
      · exact (h.minted (hframe.grows.len.trans hlen) k hk).trans_le hframe.grows.len

/-- A pass that keeps the invariant and the frame at each item does so as a whole. -/
lemma fold_frame {α : Type} {step : Draft D → α → Draft D}
    (hstep : ∀ d x, d.Sound → (step d x).Sound ∧ d.tier.Frame (step d x).tier) (xs : List α) (h : d.Sound) :
    (xs.foldl step d).Sound ∧ d.tier.Frame (xs.foldl step d).tier := by
  induction xs generalizing d with
  | nil => exact ⟨h,.refl _⟩
  | cons x xs ih =>
    obtain ⟨hsound,hframe⟩ := hstep d x h
    obtain ⟨hsound',hframe'⟩ := ih hsound
    exact ⟨hsound',hframe.trans hframe'⟩

lemma Sound.assert_frame (h : d.Sound) (sig : SubquerySig) (pk : String) (present : Option Value) :
    (d.assert sig pk present).Sound ∧ d.tier.Frame (d.assert sig pk present).tier :=
  ⟨h.assert sig pk present,(frame_assert d sig pk present).1⟩

lemma Sound.assertIf_frame (h : d.Sound) (stamp : CommitStamp) (sig : SubquerySig) (pk : String)
    (present : Option Value) :
    (d.assertIf stamp sig pk present).Sound ∧ d.tier.Frame (d.assertIf stamp sig pk present).tier := by
  rw [assertIf]
  split_ifs
  · exact h.assert_frame sig pk present
  · exact ⟨h,.refl _⟩

/-- What changes how a node is at work keeps the invariant. -/
lemma Sound.editNode (h : d.Sound) (sig : SubquerySig) {f : LiveNode → LiveNode}
    (hf : ∀ n, (f n).toSubqueryNode = n.toSubqueryNode ∧ (f n).nodeId = n.nodeId) :
    (⟨d.tier.editNode sig f,d.asserts⟩ : Draft D).Sound ∧ d.tier.Frame (d.tier.editNode sig f) := by
  obtain ⟨hframe,hholders,-⟩ := NodeTier.frame_editNode d.tier sig hf
  exact ⟨h.frame hframe hholders,hframe⟩

/-- The same for some nodes, one after the other. -/
lemma Sound.editNodes (h : d.Sound) {α : Type} (f : α → LiveNode → LiveNode) (key : α → SubquerySig)
    (hf : ∀ x n, (f x n).toSubqueryNode = n.toSubqueryNode ∧ (f x n).nodeId = n.nodeId) (xs : List α) :
    (⟨xs.foldl (fun T x => T.editNode (key x) (f x)) d.tier,d.asserts⟩ : Draft D).Sound ∧
      d.tier.Frame (xs.foldl (fun T x => T.editNode (key x) (f x)) d.tier) := by
  induction xs generalizing d with
  | nil => exact ⟨h,.refl _⟩
  | cons x xs ih =>
    obtain ⟨hsound,hframe⟩ := h.editNode (key x) (hf x)
    obtain ⟨hsound',hframe'⟩ := ih hsound
    exact ⟨hsound',hframe.trans hframe'⟩

lemma Sound.decideRow_frame (h : d.Sound) (stamp : CommitStamp) (tkey : String) (fenced : List SubquerySig)
    (e : String × Option (SubquerySig × Value)) :
    (d.decideRow stamp tkey fenced e).Sound ∧ d.tier.Frame (d.decideRow stamp tkey fenced e).tier := by
  obtain ⟨hrecord,hframe⟩ := h.editNodes (fun _ n => { n with recent := n.recent.insert e.1 stamp }) id
    (fun _ _ => ⟨rfl,rfl⟩) fenced
  have hholders : ∀ (sigs : List SubquerySig) (d : Draft D), d.Sound →
      (sigs.foldl (fun d sig => if e.2.any (·.1 == sig) then d else d.assertIf stamp sig e.1 none) d).Sound ∧
      d.tier.Frame (sigs.foldl (fun d sig =>
        if e.2.any (·.1 == sig) then d else d.assertIf stamp sig e.1 none) d).tier := by
    refine fun sigs d h => fold_frame (fun d sig h => ?_) sigs h
    split_ifs
    · exact ⟨h,.refl _⟩
    · exact h.assertIf_frame stamp sig e.1 none
  obtain ⟨hgone,hframe'⟩ := hholders _ _ hrecord
  rw [decideRow]
  cases htarget : e.2 with
  | none =>
    rw [htarget] at hgone hframe'
    exact ⟨hgone,hframe.trans hframe'⟩
  | some t =>
    rw [htarget] at hgone hframe'
    obtain ⟨hin,hframe''⟩ := hgone.assertIf_frame stamp t.1 e.1 (some t.2)
    exact ⟨hin,(hframe.trans hframe').trans hframe''⟩

lemma Sound.changeTemplate_frame (h : d.Sound) (stamp : CommitStamp) (ts : TableSchema) (delta : Delta)
    (tkey : String) : (d.changeTemplate stamp ts delta tkey).Sound ∧
      d.tier.Frame (d.changeTemplate stamp ts delta tkey).tier := by
  obtain ⟨hbuffer,hframe⟩ := h.editNodes
    (fun _ n => { n with seedBuffer := n.seedBuffer.map (· ++ [⟨stamp,delta⟩]) }) id (fun _ _ => ⟨rfl,rfl⟩)
    (d.tier.bound tkey)
  rw [changeTemplate,templateAssertions]
  obtain ⟨hsound,hframe'⟩ := fold_frame (fun d e h => h.decideRow_frame stamp tkey _ e) _ hbuffer
  exact ⟨hsound,hframe.trans hframe'⟩

end Draft

/-- The flips are what changes of the sets, each once and with its direction. -/
structure FlipsOf (sets sets' : NodeSets) (flips : List (SubquerySig × Flip)) : Prop where
  change : ∀ f ∈ flips, sets f.1 f.2.value = false ∧ sets' f.1 f.2.value = true ∧ f.2.dir = .enter ∨
    sets f.1 f.2.value = true ∧ sets' f.1 f.2.value = false ∧ f.2.dir = .leave
  all : ∀ sig v, sets sig v ≠ sets' sig v → ∃ f ∈ flips, f.1 = sig ∧ f.2.value.eqv v = true
  once : flips.Pairwise fun e f => e.1 = f.1 → e.2.value.eqv f.2.value = false

namespace NodeTier
variable {D : Dbsp} {T T' : NodeTier D} {ts : TableSchema}

/-- What holds of the tier between two calls. -/
def Sound (T : NodeTier D) : Prop := (⟨T,[]⟩ : Draft D).Sound

/-- The circuit comes to hold what the draft said. -/
lemma held_applyAsserts (d : Draft D) : (d.tier.applyAsserts d.asserts).1.circuit.held = d.now :=
  MembershipCircuit.held_apply

lemma sound_applyAsserts {d : Draft D} (h : d.Sound) : (d.tier.applyAsserts d.asserts).1.Sound := by
  have hnow : (⟨(d.tier.applyAsserts d.asserts).1,[]⟩ : Draft D).now = d.now := held_applyAsserts d
  refine ⟨h.circuit.apply d.asserts,h.byId,h.fresh,h.bound,h.binds,?_,?_,?_⟩
  · rw [hnow]
    exact h.index
  · rw [hnow]
    exact h.owned
  · rw [hnow]
    exact h.minted

/-- The deltas of the circuit are flips of the nodes. -/
lemma flips_applyAsserts {d : Draft D} (h : d.Sound) :
    FlipsOf d.tier.sets (d.tier.applyAsserts d.asserts).1.sets (d.tier.applyAsserts d.asserts).2 := by
  have hchanges := h.circuit.changes d.asserts
  have hsets : ∀ {sig node id}, d.tier.fixed sig = some (node,id) → ∀ v,
      d.tier.sets sig v = d.tier.circuit.contains id v ∧
      (d.tier.applyAsserts d.asserts).1.sets sig v = (d.tier.circuit.apply d.asserts).1.contains id v := by
    intro sig node id hfix v
    have hfix' : (d.tier.applyAsserts d.asserts).1.fixed sig = some (node,id) := hfix
    rw [sets_eq,sets_eq,hfix,hfix']
    exact ⟨rfl,rfl⟩
  refine ⟨fun f hf => ?_,fun sig v hne => ?_,?_⟩
  · obtain ⟨c,hc,hsome⟩ := List.mem_filterMap.mp hf
    obtain ⟨sig,hsig,rfl⟩ := Option.map_eq_some_iff.mp hsome
    obtain ⟨node,hfix⟩ := (h.byId _ sig).mp hsig
    obtain ⟨hold,hnew⟩ := hsets hfix c.value
    dsimp only
    rw [hold,hnew]
    rcases hchanges.change c hc with ⟨h₁,h₂,hd⟩ | ⟨h₁,h₂,hd⟩
    · exact .inl ⟨h₁,h₂,by rw [hd]; rfl⟩
    · exact .inr ⟨h₁,h₂,by rw [hd]; rfl⟩
  · obtain ⟨x,hfix⟩ : ∃ x, d.tier.fixed sig = some x := by
      rw [← Option.ne_none_iff_exists']
      intro hnone
      have hnone' : (d.tier.applyAsserts d.asserts).1.fixed sig = none := hnone
      exact hne (by rw [sets_eq,sets_eq,hnone,hnone']; rfl)
    obtain ⟨hold,hnew⟩ := @hsets sig x.1 x.2 hfix v
    rw [hold,hnew] at hne
    obtain ⟨c,hc,hid,hv⟩ := hchanges.all x.2 v hne
    have hsig := (h.byId c.nodeId sig).mpr ⟨x.1,by rw [hid]; exact hfix⟩
    refine ⟨(sig,⟨c.value,if 0 < c.delta then .enter else .leave⟩),List.mem_filterMap.mpr ⟨c,hc,?_⟩,rfl,hv⟩
    rw [hsig]
    rfl
  · refine List.Pairwise.filterMap _ (fun c c' hcc f hf f' hf' heq => ?_) hchanges.once
    obtain ⟨sig,hsig,rfl⟩ := Option.map_eq_some_iff.mp hf
    obtain ⟨sig',hsig',rfl⟩ := Option.map_eq_some_iff.mp hf'
    obtain rfl : sig = sig' := heq
    obtain ⟨node,hfix⟩ := (h.byId _ _).mp hsig
    obtain ⟨node',hfix'⟩ := (h.byId _ _).mp hsig'
    exact hcc (congrArg Prod.snd (Option.some.inj (hfix.symm.trans hfix')))

section
variable (h : T.Sound)
include h

variable (ts) in
/-- A change of a table keeps the invariant, and gives out its flips. -/
lemma Sound.onTableDelta (delta : Delta) (stamp : CommitStamp) : (T.onTableDelta ts delta stamp).1.Sound ∧
    FlipsOf T.sets (T.onTableDelta ts delta stamp).1.sets (T.onTableDelta ts delta stamp).2 := by
  obtain ⟨hsound,hframe⟩ := Draft.fold_frame (fun d tkey h => h.changeTemplate_frame stamp ts delta tkey)
    (T.templatesOf ts.table) h
  have hflips := flips_applyAsserts hsound
  rw [hframe.sets] at hflips
  exact ⟨sound_applyAsserts hsound,hflips⟩

lemma Sound.applyNodeEvals (sig : SubquerySig) (evals : List (String × Option Value)) :
    (T.applyNodeEvals sig evals).1.Sound ∧
      FlipsOf T.sets (T.applyNodeEvals sig evals).1.sets (T.applyNodeEvals sig evals).2 := by
  obtain ⟨hsound,hframe⟩ := Draft.fold_frame
    (fun d (e : String × Option Value) h => h.assert_frame sig e.1 e.2) evals h
  have hflips := flips_applyAsserts hsound
  rw [hframe.sets] at hflips
  exact ⟨sound_applyAsserts hsound,hflips⟩

lemma Sound.queryBack (sig : SubquerySig) (rows : List Row) (gate : SnapshotGate) :
    (T.queryBack ts sig rows gate).1.Sound ∧
      FlipsOf T.sets (T.queryBack ts sig rows gate).1.sets (T.queryBack ts sig rows gate).2 := by
  rw [NodeTier.queryBack]
  cases T.nodes.get? sig with
  | none => exact ⟨h,⟨fun _ hf => absurd hf List.not_mem_nil,fun _ _ hne => absurd rfl hne,.nil⟩⟩
  | some n => exact h.applyNodeEvals sig _

lemma Sound.editNode (sig : SubquerySig) {f : LiveNode → LiveNode}
    (hf : ∀ n, (f n).toSubqueryNode = n.toSubqueryNode ∧ (f n).nodeId = n.nodeId) : (T.editNode sig f).Sound :=
  (Draft.Sound.editNode h sig hf).1

lemma Sound.replayDelta (sig : SubquerySig) (b : BufferedDelta) : (T.replayDelta ts sig b).1.Sound := by
  rw [NodeTier.replayDelta]
  cases T.nodes.get? sig with
  | none => exact h
  | some n =>
    have hrecord : ∀ pks, (T.recordNodeRecency sig pks b.stamp).Sound := by
      intro pks
      rw [recordNodeRecency]
      split_ifs
      · exact (Draft.Sound.editNodes h (fun pk n => { n with recent := n.recent.insert pk b.stamp }) (fun _ => sig)
          (fun _ _ => ⟨rfl,rfl⟩) pks).1
      · exact h
    exact ((hrecord _).applyNodeEvals sig _).1

lemma Sound.installSeed (sig : SubquerySig) (rows : List Row) (gate : SnapshotGate) :
    (T.installSeed ts sig rows gate).1.Sound := by
  rw [NodeTier.installSeed]
  cases T.nodes.get? sig with
  | none => exact h
  | some n =>
    have hreplay : ∀ (bs : List BufferedDelta) (r : NodeTier D × List (SubquerySig × Flip)), r.1.Sound →
        (bs.foldl (fun r b => ((r.1.replayDelta ts sig b).1,r.2 ++ (r.1.replayDelta ts sig b).2)) r).1.Sound := by
      intro bs
      induction bs with
      | nil => exact fun r hr => hr
      | cons b bs ih => exact fun r hr => ih _ (hr.replayDelta sig b)
    have hgate : (T.editNode sig ({ · with gate := gate })).Sound := h.editNode sig fun _ => ⟨rfl,rfl⟩
    exact hreplay _ _ ((hgate.applyNodeEvals sig _).1.editNode sig fun _ => ⟨rfl,rfl⟩)

/-- The dictionary is shared, and others put keys into it. -/
lemma Sound.grow {dict : PkDict} (hgrows : T.pkDict.Grows dict) : ({ T with pkDict := dict } : NodeTier D).Sound :=
  Draft.Sound.frame h ⟨rfl,rfl,rfl,rfl,rfl,hgrows⟩ rfl

end

end NodeTier
end ElectricCircuits
