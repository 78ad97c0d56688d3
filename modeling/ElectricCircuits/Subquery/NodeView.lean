import ElectricCircuits.Subquery.NodeIndex

/-! One node of the tier, seen from outside: how it is at work, the live decision recorded for each key, and what each
row contributes; and what a change of its table and a query-back do to these. -/
namespace ElectricCircuits

/-- How a node is at work. -/
structure NodeStatus where
  node : SubqueryNode
  nodeId : ℕ
  gate : SnapshotGate
  seeding : Bool
  inflight : ℕ

/-- A change is decided for the node. -/
def NodeStatus.applies (st : NodeStatus) (stamp : CommitStamp) : Bool :=
  !st.seeding && !st.gate.shouldSkip stamp.1 stamp.2

def LiveNode.status (n : LiveNode) : NodeStatus :=
  ⟨n.toSubqueryNode,n.nodeId,n.gate,n.seedBuffer.isSome,n.inflightQuerybacks⟩

namespace NodeTier
variable {D : Dbsp}

def status (T : NodeTier D) (sig : SubquerySig) : Option NodeStatus := (T.nodes.get? sig).map (·.status)

/-- The live decision that is recorded for a key. -/
def recentOf (T : NodeTier D) (sig : SubquerySig) (pk : String) : Option CommitStamp :=
  (T.nodes.get? sig).bind (·.recent.get? pk)

variable {T T' : NodeTier D} {sig sig' : SubquerySig} {st : NodeStatus} {stamp : CommitStamp}

lemma fixed_of_status (h : T.status sig = some st) : T.fixed sig = some (st.node,st.nodeId) := by
  obtain ⟨n,hn,rfl⟩ := Option.map_eq_some_iff.mp h
  exact fixed_of_get hn

lemma nodeApplies_of_status (h : T.status sig = some st) : T.nodeApplies stamp sig = st.applies stamp := by
  obtain ⟨n,hn,rfl⟩ := Option.map_eq_some_iff.mp h
  rw [nodeApplies,hn,NodeStatus.applies,Option.any_some,LiveNode.status]
  cases n.seedBuffer <;> rfl

lemma status_of_nodes (h : T'.nodes = T.nodes) : T'.status = T.status ∧ T'.recentOf = T.recentOf := by
  constructor
  · funext sig
    rw [status,status,h]
  · funext sig pk
    rw [recentOf,recentOf,h]

/-- Nodes are at work as before. -/
structure Keeps (T T' : NodeTier D) : Prop extends T.Frame T' where
  status : T'.status = T.status

lemma Keeps.refl (T : NodeTier D) : T.Keeps T := ⟨.refl T,rfl⟩

lemma Keeps.trans {T'' : NodeTier D} (h : T.Keeps T') (h' : T'.Keeps T'') : T.Keeps T'' :=
  ⟨h.toFrame.trans h'.toFrame,h'.status.trans h.status⟩

lemma keeps_editNode (T : NodeTier D) (sig : SubquerySig) {f : LiveNode → LiveNode}
    (hf : ∀ n, (f n).status = n.status) : T.Keeps (T.editNode sig f) := by
  refine ⟨(frame_editNode T sig fun n => ?_).1,?_⟩
  · have hstatus := hf n
    exact ⟨congrArg NodeStatus.node hstatus,congrArg NodeStatus.nodeId hstatus⟩
  · funext sig'
    rw [status,status,get_editNode]
    split_ifs with heq
    · subst heq
      rw [Option.map_map]
      exact congrArg (fun g => Option.map g _) (funext hf)
    · rfl

section
variable (T) (pk pk' : String) (stamp)

lemma keeps_record : T.Keeps (T.record pk stamp sig) := keeps_editNode T sig fun _ => rfl

lemma recentOf_record : (T.record pk stamp sig).recentOf sig' pk' =
    if sig' = sig ∧ pk' = pk ∧ (T.status sig').isSome = true then some stamp else T.recentOf sig' pk' := by
  rw [recentOf,recentOf,record,get_editNode,status]
  by_cases heq : sig = sig'
  · subst heq
    rw [if_pos rfl]
    cases T.nodes.get? sig with
    | none => simp
    | some n =>
      simp only [Option.map_some,Option.bind_some,AssocMap.get?_insert_eq,true_and,Option.isSome_some,and_true]
      exact if_congr eq_comm rfl rfl
  · rw [if_neg heq,if_neg fun h => heq h.1.symm]

lemma recentOf_records (sigs : List SubquerySig) :
    T.Keeps (sigs.foldl (fun T sig => T.record pk stamp sig) T) ∧
    ∀ sig' pk', (sigs.foldl (fun T sig => T.record pk stamp sig) T).recentOf sig' pk' =
      if sig' ∈ sigs ∧ pk' = pk ∧ (T.status sig').isSome = true then some stamp else T.recentOf sig' pk' := by
  induction sigs generalizing T with
  | nil => exact ⟨.refl T,fun sig' pk' => by simp⟩
  | cons sig sigs ih =>
    have hkeeps := @keeps_record D T sig stamp pk
    obtain ⟨hkeeps',hrecent⟩ := ih (T.record pk stamp sig)
    refine ⟨hkeeps.trans hkeeps',fun sig' pk' => ?_⟩
    rw [List.foldl_cons,hrecent,recentOf_record,hkeeps.status]
    by_cases hrest : pk' = pk ∧ (T.status sig').isSome = true
    · by_cases hmem : sig' ∈ sigs <;> simp [hmem,hrest]
    · rw [if_neg fun hcase => hrest hcase.2,if_neg fun hcase => hrest hcase.2,if_neg fun hcase => hrest hcase.2]

/-- What is recorded is neither in the dictionary nor in the index. -/
lemma frame_records (sigs : List SubquerySig) :
    (sigs.foldl (fun T sig => T.record pk stamp sig) T).pkDict = T.pkDict ∧
    (sigs.foldl (fun T sig => T.record pk stamp sig) T).holders = T.holders := by
  induction sigs generalizing T with
  | nil => exact ⟨rfl,rfl⟩
  | cons sig sigs ih =>
    obtain ⟨-,hholders,hdict⟩ := frame_editNode T sig (f := fun n => { n with recent := n.recent.insert pk stamp })
      fun _ => ⟨rfl,rfl⟩
    obtain ⟨hdict',hholders'⟩ := ih (T.record pk stamp sig)
    exact ⟨hdict'.trans hdict,hholders'.trans hholders⟩

/-- Changes that are kept for later are all that changes. -/
lemma keeps_bufferDeltas (b : BufferedDelta) (sigs : List SubquerySig) :
    T.Keeps (sigs.foldl (fun T sig => T.bufferDelta b sig) T) ∧
    (sigs.foldl (fun T sig => T.bufferDelta b sig) T).recentOf = T.recentOf ∧
    (sigs.foldl (fun T sig => T.bufferDelta b sig) T).pkDict = T.pkDict := by
  induction sigs generalizing T with
  | nil => exact ⟨.refl T,rfl,rfl⟩
  | cons sig sigs ih =>
    have hkeeps : T.Keeps (T.bufferDelta b sig) := keeps_editNode T sig fun n => by
      rw [LiveNode.status,LiveNode.status]
      cases n.seedBuffer <;> rfl
    have hrecent : (T.bufferDelta b sig).recentOf = T.recentOf := by
      funext sig' pk'
      rw [recentOf,recentOf,bufferDelta,get_editNode]
      split_ifs with heq
      · subst heq
        cases T.nodes.get? sig <;> rfl
      · rfl
    have hdict : (T.bufferDelta b sig).pkDict = T.pkDict :=
      (frame_editNode T sig (f := fun n => { n with seedBuffer := n.seedBuffer.map (· ++ [b]) })
        fun _ => ⟨rfl,rfl⟩).2.2
    obtain ⟨hkeeps',hrecent',hdict'⟩ := ih (T.bufferDelta b sig)
    exact ⟨hkeeps.trans hkeeps',hrecent'.trans hrecent,hdict'.trans hdict⟩

end

/-- What a template decides depends on the templates and the sets alone. -/
lemma Keeps.templatePresent (h : T.Keeps T') (ts : TableSchema) (tkey : String) (delta : Delta) :
    T'.templatePresent ts tkey delta = T.templatePresent ts tkey delta := by
  rw [NodeTier.templatePresent,NodeTier.templatePresent,h.group,h.toFrame.sets]

/-- Each key of a change is decided once. -/
lemma nodup_templatePresent (T : NodeTier D) (ts : TableSchema) (tkey : String) (delta : Delta) :
    ((T.templatePresent ts tkey delta).map (·.1)).Nodup := by
  rw [templatePresent]
  cases T.group tkey with
  | none => exact List.nodup_nil
  | some g =>
    dsimp only
    rw [List.map_map]
    exact AssocMap.nodup_keys _

end NodeTier

namespace Draft
variable {D : Dbsp} {d : Draft D} {sig sig' : SubquerySig} {st : NodeStatus} {stamp : CommitStamp}

/-- What a row comes to contribute to a node. -/
def contribution (d : Draft D) (sig : SubquerySig) (pk : String) : Option Value :=
  (d.tier.fixed sig).bind fun x => (d.tier.pkDict.get pk).bind fun id => d.now ⟨x.2,id⟩

/-- What a row contributes is kept while the dictionary grows. -/
lemma Sound.bind_now (h : d.Sound) {dict : PkDict} (hgrows : d.tier.pkDict.Grows dict) (hlen : dict.len ≤ 2^32)
    (nodeId : ℕ) (pk : String) : ((dict.get pk).bind fun id => d.now ⟨nodeId,id⟩) =
      (d.tier.pkDict.get pk).bind fun id => d.now ⟨nodeId,id⟩ :=
  PkDict.bind_of_grows hgrows.len hlen (hgrows.get hlen)
    (fun id hid => h.minted (hgrows.len.trans hlen) ⟨nodeId,id⟩ hid) pk

/-- An assertion of one row of one node is what that row contributes to it, and nothing else. -/
lemma Sound.contribution_assert (h : d.Sound) (hlive : d.tier.fixed sig ≠ none)
    {pk : String} {present : Option Value}
    (hlen : (d.assert sig pk present).tier.pkDict.len ≤ 2^32) (sig' : SubquerySig) (pk' : String) :
    (d.assert sig pk present).contribution sig' pk' =
      if sig' = sig ∧ pk' = pk then present else d.contribution sig' pk' := by
  obtain ⟨n,hn⟩ : ∃ n, d.tier.nodes.get? sig = some n := by
    rw [← Option.ne_none_iff_exists']
    intro hnone
    exact hlive (by rw [NodeTier.fixed,hnone]; rfl)
  have hfix := NodeTier.fixed_of_get hn
  have hgrows := PkDict.grows_getOrInsert d.tier.pkDict pk
  rw [contribution,(frame_assert d sig pk present).1.fixed]
  rw [pkDict_assert hn] at hlen ⊢
  simp only [h.now_assert hn]
  split_ifs with hkey
  · obtain ⟨rfl,rfl⟩ := hkey
    rw [hfix,Option.bind_some,PkDict.get_getOrInsert,Option.bind_some]
    exact if_pos rfl
  · refine Option.bind_congr fun x hx => ?_
    rw [← h.bind_now hgrows hlen]
    refine Option.bind_congr fun id hid => if_neg fun heq => ?_
    -- the key asserted is that of this row of this node
    obtain ⟨hid',rfl⟩ := PkKey.mk.inj heq
    have hx : d.tier.fixed sig' = some (x.1,n.nodeId) := by rw [hx,← hid']
    refine hkey ⟨h.id_inj hx hfix,?_⟩
    exact PkDict.get_inj hlen hid (PkDict.get_getOrInsert _ pk)

lemma keeps_assert (d : Draft D) (sig : SubquerySig) (pk : String) (present : Option Value) :
    d.tier.Keeps (d.assert sig pk present).tier ∧ (d.assert sig pk present).tier.recentOf = d.tier.recentOf := by
  obtain ⟨hframe,hnodes⟩ := frame_assert d sig pk present
  obtain ⟨hstatus,hrecent⟩ := NodeTier.status_of_nodes hnodes
  exact ⟨⟨hframe,hstatus⟩,hrecent⟩

/-- What a draft comes to for a node: the rows that it has contribute, as far as the ids fit. -/
structure Comes (d d' : Draft D) (F : SubquerySig → String → Option Value) : Prop where
  keeps : d.tier.Keeps d'.tier
  sound : d'.Sound
  contribution : d'.tier.pkDict.len ≤ 2^32 → ∀ sig pk, d'.contribution sig pk = F sig pk

lemma Comes.refl (h : d.Sound) : d.Comes d d.contribution := ⟨.refl _,h,fun _ _ _ => rfl⟩

lemma contribution_of_frame {T : NodeTier D} (hframe : d.tier.Frame T) (hdict : T.pkDict = d.tier.pkDict) :
    (⟨T,d.asserts⟩ : Draft D).contribution = d.contribution := by
  have hnow : (⟨T,d.asserts⟩ : Draft D).now = d.now := by rw [now,now,hframe.circuit]
  funext sig pk
  rw [contribution,contribution,hframe.fixed,hdict,hnow]

lemma Sound.comes_assert (h : d.Sound) (hlive : d.tier.fixed sig ≠ none) (pk : String) (present : Option Value) :
    d.Comes (d.assert sig pk present) fun sig' pk' =>
      if sig' = sig ∧ pk' = pk then present else d.contribution sig' pk' :=
  ⟨(keeps_assert d sig pk present).1,h.assert sig pk present,fun hlen => h.contribution_assert hlive hlen⟩

lemma Sound.comes_assertIf (h : d.Sound) (stamp : CommitStamp) (sig : SubquerySig) (pk : String)
    (present : Option Value) :
    (d.Comes (d.assertIf stamp sig pk present) fun sig' pk' =>
      if sig' = sig ∧ pk' = pk ∧ d.tier.nodeApplies stamp sig = true then present else d.contribution sig' pk') ∧
    (d.assertIf stamp sig pk present).tier.recentOf = d.tier.recentOf := by
  rw [assertIf]
  split_ifs with happlies
  · have hlive : d.tier.fixed sig ≠ none := by
      obtain ⟨n,hn,-⟩ := (Option.any_eq_true ..).mp happlies
      rw [NodeTier.fixed_of_get hn]
      exact Option.some_ne_none _
    obtain ⟨hkeeps,hsound,hc⟩ := h.comes_assert hlive pk present
    refine ⟨⟨hkeeps,hsound,fun hlen sig' pk' => ?_⟩,(keeps_assert d sig pk present).2⟩
    rw [hc hlen]
    exact if_congr (by rw [and_iff_left happlies]) rfl rfl
  · refine ⟨⟨.refl _,h,fun _ sig' pk' => ?_⟩,rfl⟩
    exact (if_neg fun hcase => happlies hcase.2.2).symm

lemma nodeApplies_of_keeps {T T' : NodeTier D} (h : T.Keeps T') : T'.nodeApplies stamp = T.nodeApplies stamp := by
  funext sig
  have hstatus := congrFun h.status sig
  cases hs : T.status sig with
  | none =>
    rw [hs] at hstatus
    rw [NodeTier.nodeApplies,NodeTier.nodeApplies,Option.map_eq_none_iff.mp hs,Option.map_eq_none_iff.mp hstatus]
  | some st => rw [NodeTier.nodeApplies_of_status hs,NodeTier.nodeApplies_of_status (hstatus.trans hs)]

/-- The nodes that held a row without being where it belongs lose it. -/
lemma Sound.comes_holders (h : d.Sound) (stamp : CommitStamp) (e : String × Option (SubquerySig × Value))
    (sigs : List SubquerySig) :
    (d.Comes (sigs.foldl (fun d sig => if e.2.any (·.1 == sig) then d else d.assertIf stamp sig e.1 none) d)
      fun sig' pk' => if sig' ∈ sigs ∧ e.2.any (·.1 == sig') = false ∧ pk' = e.1 ∧
        d.tier.nodeApplies stamp sig' = true then none else d.contribution sig' pk') ∧
    (sigs.foldl (fun d sig => if e.2.any (·.1 == sig) then d else d.assertIf stamp sig e.1 none) d).tier.recentOf =
      d.tier.recentOf := by
  induction sigs generalizing d with
  | nil => exact ⟨⟨.refl _,h,fun _ sig' pk' => by simp⟩,rfl⟩
  | cons sig sigs ih =>
    rw [List.foldl_cons]
    by_cases hin : e.2.any (·.1 == sig) = true
    · rw [if_pos hin]
      obtain ⟨⟨hkeeps,hsound,hc⟩,hrecent⟩ := ih h
      refine ⟨⟨hkeeps,hsound,fun hlen sig' pk' => ?_⟩,hrecent⟩
      rw [hc hlen]
      refine if_congr (and_congr_left fun hcase => ?_) rfl rfl
      refine (List.mem_cons.trans (or_iff_right ?_)).symm
      rintro rfl
      rw [hin] at hcase
      exact Bool.false_ne_true hcase.1.symm
    · rw [if_neg hin]
      obtain ⟨⟨hkeeps,hsound,hc⟩,hrecent⟩ := h.comes_assertIf stamp sig e.1 none
      obtain ⟨⟨hkeeps',hsound',hc'⟩,hrecent'⟩ := ih hsound
      refine ⟨⟨hkeeps.trans hkeeps',hsound',fun hlen sig' pk' => ?_⟩,hrecent'.trans hrecent⟩
      rw [hc' hlen,hc (hkeeps'.grows.len.trans hlen),nodeApplies_of_keeps hkeeps]
      simp only [List.mem_cons]
      by_cases hs : sig' = sig
      · subst hs
        by_cases hrest : pk' = e.1 ∧ d.tier.nodeApplies stamp sig' = true
        · simp [hrest,Bool.eq_false_of_not_eq_true hin]
        · have hnot : ¬(sig' ∈ sigs ∧ e.2.any (·.1 == sig') = false ∧ pk' = e.1 ∧
              d.tier.nodeApplies stamp sig' = true) := fun hcase => hrest hcase.2.2
          rw [if_neg hnot,if_neg fun hcase => hrest hcase.2,if_neg fun hcase => hrest hcase.2.2]
      · simp [hs]

/-- What a row has by the place where it belongs, for one node. -/
def belongs (target : Option (SubquerySig × Value)) (sig : SubquerySig) : Option Value :=
  target.bind fun t => if t.1 = sig then some t.2 else none

/-- A node whose rows a template decides. -/
def Decides (d : Draft D) (stamp : CommitStamp) (tkey : String) (sig : SubquerySig) : Prop :=
  d.tier.nodeApplies stamp sig = true ∧ ∃ x, d.tier.fixed sig = some x ∧ x.1.templateKey = tkey

/-- The places of the rows are nodes of the template. -/
def Places (d : Draft D) (tkey : String) (target : Option (SubquerySig × Value)) : Prop :=
  ∀ t ∈ target, ∃ x, d.tier.fixed t.1 = some x ∧ x.1.templateKey = tkey

lemma Decides.of_keeps {d' : Draft D} (h : d.tier.Keeps d'.tier) {tkey : String} :
    d'.Decides stamp tkey sig ↔ d.Decides stamp tkey sig := by
  rw [Decides,Decides,nodeApplies_of_keeps h,h.fixed]

/-- The nodes that hold a row are those to which it contributes. -/
lemma Sound.mem_holding (h : d.Sound) (tkey pk : String) (sig : SubquerySig) :
    sig ∈ ((d.tier.pkDict.get pk).map (d.tier.holders tkey)).getD [] ↔
      (d.contribution sig pk).isSome = true ∧ ∃ x, d.tier.fixed sig = some x ∧ x.1.templateKey = tkey := by
  rw [contribution]
  cases hid : d.tier.pkDict.get pk with
  | none => cases d.tier.fixed sig <;> simp
  | some id =>
    refine (h.index tkey id sig).trans ?_
    constructor
    · rintro ⟨node,nodeId,hnode,hkey,hsome⟩
      exact ⟨by rw [hnode]; exact hsome,_,hnode,hkey⟩
    · rintro ⟨hsome,x,hx,hkey⟩
      rw [hx] at hsome
      exact ⟨x.1,x.2,hx,hkey,hsome⟩

open Classical in
/-- A row that is decided contributes where it belongs, and nowhere else in the template. -/
lemma Sound.comes_decideRow (h : d.Sound) (stamp : CommitStamp) {tkey : String} (fenced : List SubquerySig)
    {e : String × Option (SubquerySig × Value)} (hplaces : d.Places tkey e.2) :
    (d.Comes (d.decideRow stamp tkey fenced e) fun sig pk =>
      if pk = e.1 ∧ d.Decides stamp tkey sig then belongs e.2 sig else d.contribution sig pk) ∧
    ∀ sig pk, (d.decideRow stamp tkey fenced e).tier.recentOf sig pk =
      if sig ∈ fenced ∧ pk = e.1 ∧ (d.tier.status sig).isSome = true then some stamp
      else d.tier.recentOf sig pk := by
  obtain ⟨hrecords,hrecent⟩ := d.tier.recentOf_records stamp e.1 fenced
  obtain ⟨hsound,-⟩ := h.editNodes (fun _ n => { n with recent := n.recent.insert e.1 stamp }) id
    (fun _ _ => ⟨rfl,rfl⟩) fenced
  obtain ⟨hdict,hholders⟩ := d.tier.frame_records stamp e.1 fenced
  have hcontribution := contribution_of_frame hrecords.toFrame hdict
  rw [decideRow]
  set T := fenced.foldl (fun T sig => T.record e.1 stamp sig) d.tier with hT
  have hsoundT : (⟨T,d.asserts⟩ : Draft D).Sound := hsound
  obtain ⟨⟨hkeeps,hgone,hc⟩,hrecent'⟩ := hsoundT.comes_holders stamp e
    (((T.pkDict.get e.1).map (T.holders tkey)).getD [])
  have hheld := h.mem_holding tkey e.1
  rw [← hdict,← hholders] at hheld
  generalize ((T.pkDict.get e.1).map (T.holders tkey)).getD [] = sigs at hkeeps hgone hc hrecent' hheld
  dsimp only at hkeeps hgone hc hrecent' ⊢
  rw [hcontribution,nodeApplies_of_keeps hrecords] at hc
  generalize sigs.foldl (fun d sig => if e.2.any (·.1 == sig) then d else d.assertIf stamp sig e.1 none)
    (⟨T,d.asserts⟩ : Draft D) = d' at hkeeps hgone hc hrecent' ⊢
  have hkeeps := hrecords.trans hkeeps
  -- where the row does not belong to a node, that is all
  have hleft : d'.tier.pkDict.len ≤ 2^32 → ∀ sig pk, belongs e.2 sig = none → d'.contribution sig pk =
      if pk = e.1 ∧ d.Decides stamp tkey sig then belongs e.2 sig else d.contribution sig pk := by
    intro hlen sig pk hnot
    have hany : e.2.any (·.1 == sig) = false := by
      rw [belongs] at hnot
      cases he : e.2 with
      | none => rfl
      | some t =>
        rw [he,Option.bind_some] at hnot
        split_ifs at hnot with heq
        exact beq_false_of_ne heq
    rw [hc hlen,hnot]
    by_cases hdecides : pk = e.1 ∧ d.Decides stamp tkey sig
    · rw [if_pos hdecides]
      obtain ⟨rfl,happlies,hkey⟩ := hdecides
      cases hsome : d.contribution sig e.1 with
      | none => exact ite_self none
      | some v => exact if_pos ⟨(hheld sig).mpr ⟨by rw [hsome]; rfl,hkey⟩,hany,rfl,happlies⟩
    · rw [if_neg hdecides]
      exact if_neg fun hcase => hdecides ⟨hcase.2.2.1,hcase.2.2.2,((hheld sig).mp hcase.1).2⟩
  cases he : e.2 with
  | none =>
    rw [he] at hleft
    exact ⟨⟨hkeeps,hgone,fun hlen sig pk => hleft hlen sig pk rfl⟩,fun sig pk => by rw [hrecent',hrecent]⟩
  | some t =>
    obtain ⟨tsig,v⟩ := t
    rw [he] at hleft
    obtain ⟨⟨hkeeps',hin,hc'⟩,hrecent''⟩ := hgone.comes_assertIf stamp tsig e.1 (some v)
    refine ⟨⟨hkeeps.trans hkeeps',hin,fun hlen sig pk => ?_⟩,fun sig pk => by rw [hrecent'',hrecent',hrecent]⟩
    have hlen' := hkeeps'.grows.len.trans hlen
    rw [hc' hlen,nodeApplies_of_keeps hkeeps]
    by_cases hsig : sig = tsig
    · subst hsig
      have hkey := hplaces (sig,v) he
      have hskip : ¬(sig ∈ sigs ∧ e.2.any (·.1 == sig) = false ∧ pk = e.1 ∧ d.tier.nodeApplies stamp sig = true) := by
        rw [he]
        exact fun hcase => absurd hcase.2.1 (by simp)
      rw [hc hlen',if_neg hskip,show belongs (some (sig,v)) sig = some v from if_pos rfl]
      exact if_congr ⟨fun hcase => ⟨hcase.2.1,hcase.2.2,hkey⟩,fun hcase => ⟨rfl,hcase.1,hcase.2.1⟩⟩ rfl rfl
    · rw [if_neg fun hcase => hsig hcase.1]
      exact hleft hlen' sig pk (if_neg (Ne.symm hsig))

/-- What the decisions of a template come to: the rows that were decided contribute where they belong, as far as the
template decides for a node, and the nodes with a read to beat have it recorded. -/
structure Decided (d d' : Draft D) (stamp : CommitStamp) (tkey : String) (fenced : List SubquerySig)
    (evals : List (String × Option (SubquerySig × Value))) : Prop where
  keeps : d.tier.Keeps d'.tier
  sound : d'.Sound
  here : d'.tier.pkDict.len ≤ 2^32 → ∀ e ∈ evals, ∀ sig, d.Decides stamp tkey sig →
    d'.contribution sig e.1 = belongs e.2 sig
  there : d'.tier.pkDict.len ≤ 2^32 → ∀ sig pk, (pk ∈ evals.map (·.1) → ¬d.Decides stamp tkey sig) →
    d'.contribution sig pk = d.contribution sig pk
  recent : ∀ sig pk, d'.tier.recentOf sig pk =
    if sig ∈ fenced ∧ pk ∈ evals.map (·.1) ∧ (d.tier.status sig).isSome = true then some stamp
    else d.tier.recentOf sig pk

lemma Sound.decided (h : d.Sound) (stamp : CommitStamp) {tkey : String} (fenced : List SubquerySig)
    (evals : List (String × Option (SubquerySig × Value))) (hnodup : (evals.map (·.1)).Nodup)
    (hplaces : ∀ e ∈ evals, d.Places tkey e.2) :
    d.Decided (evals.foldl (fun d e => d.decideRow stamp tkey fenced e) d) stamp tkey fenced evals := by
  induction evals generalizing d with
  | nil => exact ⟨.refl _,h,fun _ e he => absurd he List.not_mem_nil,fun _ _ _ _ => rfl,fun sig pk => by simp⟩
  | cons e evals ih =>
    obtain ⟨hnot,hnodup⟩ := List.nodup_cons.mp (List.map_cons ▸ hnodup)
    obtain ⟨hplace,hplaces⟩ := List.forall_mem_cons.mp hplaces
    obtain ⟨⟨hkeeps,hsound,hc⟩,hrecent⟩ := h.comes_decideRow stamp fenced hplace
    obtain ⟨hkeeps',hsound',hhere,hthere,hrecent'⟩ := ih hsound hnodup fun e he => by
      rw [Places,hkeeps.fixed]
      exact hplaces e he
    have hdecides : ∀ sig, (d.decideRow stamp tkey fenced e).Decides stamp tkey sig ↔ d.Decides stamp tkey sig :=
      fun sig => Decides.of_keeps hkeeps
    simp only [hdecides] at hhere hthere
    refine ⟨hkeeps.trans hkeeps',hsound',fun hlen => ?_,fun hlen sig pk hpk => ?_,fun sig pk => ?_⟩
    · refine List.forall_mem_cons.mpr ⟨fun sig hsig => ?_,fun e he sig hsig => hhere hlen e he sig hsig⟩
      rw [List.foldl_cons,hthere hlen sig e.1 fun hmem => absurd hmem hnot,hc (hkeeps'.grows.len.trans hlen)]
      exact if_pos ⟨rfl,hsig⟩
    · rw [List.foldl_cons,hthere hlen sig pk fun hmem => hpk (List.mem_cons_of_mem _ hmem),
        hc (hkeeps'.grows.len.trans hlen)]
      refine if_neg ?_
      rintro ⟨rfl,hsig⟩
      exact hpk List.mem_cons_self hsig
    · rw [List.foldl_cons,hrecent',hrecent,hkeeps.status]
      by_cases hrest : sig ∈ fenced ∧ (d.tier.status sig).isSome = true
      · by_cases hmem : pk ∈ evals.map (·.1) <;> simp [hmem,hrest]
      · have hnot : ∀ p : Prop, ¬(sig ∈ fenced ∧ p ∧ (d.tier.status sig).isSome = true) :=
          fun p hcase => hrest ⟨hcase.1,hcase.2.2⟩
        rw [if_neg (hnot _),if_neg (hnot _),if_neg (hnot _)]

section
variable {ts : TableSchema} {delta : Delta} {tkey : String}

lemma Sound.mem_bound (h : d.Sound) (hst : d.tier.status sig = some st) :
    sig ∈ d.tier.bound tkey ↔ st.node.templateKey = tkey := by
  have hfix := NodeTier.fixed_of_status hst
  rw [NodeTier.bound]
  cases hg : d.tier.group tkey with
  | none =>
    refine iff_of_false (List.not_mem_nil) ?_
    rintro rfl
    obtain ⟨g,hg',-⟩ := h.bound sig _ _ hfix
    rw [hg] at hg'
    cases hg'
  | some g =>
    constructor
    · intro hmem
      obtain ⟨⟨b,sig⟩,hb,rfl⟩ := List.mem_map.mp hmem
      obtain ⟨node,id,hnode,hkey,-⟩ := h.binds tkey g b sig hg (AssocMap.get?_of_mem hb)
      obtain ⟨rfl,-⟩ := Prod.mk.inj (Option.some.inj (hfix.symm.trans hnode))
      exact hkey
    · rintro rfl
      obtain ⟨g',hg',hb⟩ := h.bound sig _ _ hfix
      rw [hg] at hg'
      obtain rfl := Option.some.inj hg'
      obtain ⟨b,-,hb⟩ := AssocMap.get?_eq_some.mp hb
      exact List.mem_map.mpr ⟨_,hb,rfl⟩

/-- The nodes with a read to beat are what they were. -/
lemma fenced_of_keeps {T T' : NodeTier D} (h : T.Keeps T') : T'.fenced tkey stamp = T.fenced tkey stamp := by
  have hinflight : ∀ T : NodeTier D, ∀ sig, ((T.nodes.get? sig).any fun n => decide (0 < n.inflightQuerybacks)) =
      (T.status sig).any fun st => decide (0 < st.inflight) := by
    intro T sig
    rw [NodeTier.status,Option.any_map]
    rfl
  rw [NodeTier.fenced,NodeTier.fenced,NodeTier.bound,NodeTier.bound,h.group]
  simp only [hinflight,h.status,nodeApplies_of_keeps h]

/-- A template places rows at nodes of its own. -/
lemma Sound.places_templatePresent (h : d.Sound) {e : String × Option (SubquerySig × Value)}
    (he : e ∈ d.tier.templatePresent ts tkey delta) : d.Places tkey e.2 := by
  intro t ht
  rw [NodeTier.templatePresent] at he
  cases hg : d.tier.group tkey with
  | none =>
    rw [hg] at he
    exact absurd he List.not_mem_nil
  | some g =>
    rw [hg] at he
    obtain ⟨c,-,rfl⟩ := List.mem_map.mp he
    have ht : g.target d.tier.sets.eval c.2.1 c.2.2 = some t := ht
    rw [TemplateGroup.target] at ht
    split_ifs at ht
    obtain ⟨sig,hsig,rfl⟩ := Option.map_eq_some_iff.mp ht
    obtain ⟨node,id,hnode,hkey,-⟩ := h.binds tkey g _ sig hg hsig
    exact ⟨(node,id),hnode,hkey⟩

/-- What a change of the table is to one template. -/
lemma Sound.changeTemplate (h : d.Sound) (stamp : CommitStamp) (ts : TableSchema) (delta : Delta) (tkey : String) :
    d.Decided (d.changeTemplate stamp ts delta tkey) stamp tkey (d.tier.fenced tkey stamp)
      (d.tier.templatePresent ts tkey delta) := by
  obtain ⟨hkeeps,hrecent,hdict⟩ := d.tier.keeps_bufferDeltas ⟨stamp,delta⟩ (d.tier.bound tkey)
  obtain ⟨hsound,-⟩ := h.editNodes
    (fun _ n => { n with seedBuffer := n.seedBuffer.map (· ++ [⟨stamp,delta⟩]) }) id (fun _ _ => ⟨rfl,rfl⟩)
    (d.tier.bound tkey)
  have hcontribution := contribution_of_frame hkeeps.toFrame hdict
  rw [Draft.changeTemplate,templateAssertions]
  dsimp only
  set T := (d.tier.bound tkey).foldl (fun T sig => T.bufferDelta ⟨stamp,delta⟩ sig) d.tier with hT
  have hsoundT : (⟨T,d.asserts⟩ : Draft D).Sound := hsound
  rw [hkeeps.templatePresent,fenced_of_keeps hkeeps]
  have hplaces : ∀ e ∈ d.tier.templatePresent ts tkey delta, (⟨T,d.asserts⟩ : Draft D).Places tkey e.2 := by
    intro e he
    rw [Places,hkeeps.fixed]
    exact h.places_templatePresent he
  obtain ⟨hkeeps',hsound',hhere,hthere,hrecent'⟩ := hsoundT.decided stamp
    (d.tier.fenced tkey stamp) _ (d.tier.nodup_templatePresent ts tkey delta) hplaces
  rw [hcontribution] at hthere
  refine ⟨hkeeps.trans hkeeps',hsound',fun hlen e he sig hsig => ?_,fun hlen sig pk hpk => ?_,fun sig pk => ?_⟩
  · exact hhere hlen e he sig ((Decides.of_keeps hkeeps).mpr hsig)
  · exact hthere hlen sig pk fun hmem hsig => hpk hmem ((Decides.of_keeps hkeeps).mp hsig)
  · rw [hrecent',hkeeps.status,hrecent]

/-- What the decisions come to for one node. -/
structure DecidedAt (d d' : Draft D) (stamp : CommitStamp) (sig : SubquerySig) (st : NodeStatus)
    (evals : List (String × Option (SubquerySig × Value))) : Prop where
  here : d'.tier.pkDict.len ≤ 2^32 → st.applies stamp = true → ∀ e ∈ evals,
    d'.contribution sig e.1 = belongs e.2 sig
  there : d'.tier.pkDict.len ≤ 2^32 → ∀ pk, (pk ∈ evals.map (·.1) → st.applies stamp = false) →
    d'.contribution sig pk = d.contribution sig pk
  recent : ∀ pk, d'.tier.recentOf sig pk =
    if 0 < st.inflight ∧ st.applies stamp = true ∧ pk ∈ evals.map (·.1) then some stamp else d.tier.recentOf sig pk

/-- A template decides for its own nodes. -/
lemma Decided.at_node {d' : Draft D} (hd : d.Decided d' stamp tkey (d.tier.fenced tkey stamp)
    (d.tier.templatePresent ts tkey delta)) (h : d.Sound) (hst : d.tier.status sig = some st) :
    d.DecidedAt d' stamp sig st
      (if tkey = st.node.templateKey then d.tier.templatePresent ts tkey delta else []) := by
  have hfix := NodeTier.fixed_of_status hst
  have happlies : d.tier.nodeApplies stamp sig = st.applies stamp := NodeTier.nodeApplies_of_status hst
  have hdecides : d.Decides stamp tkey sig ↔ st.applies stamp = true ∧ st.node.templateKey = tkey := by
    rw [Decides,happlies,hfix]
    simp
  have hfenced : sig ∈ d.tier.fenced tkey stamp ↔
      st.node.templateKey = tkey ∧ 0 < st.inflight ∧ st.applies stamp = true := by
    obtain ⟨n,hn,hstatus⟩ := Option.map_eq_some_iff.mp hst
    rw [NodeTier.fenced,List.mem_filter,h.mem_bound hst,happlies,hn,← hstatus]
    simp [LiveNode.status]
  by_cases hkey : tkey = st.node.templateKey
  · rw [if_pos hkey]
    refine ⟨fun hlen ha e he => hd.here hlen e he sig (hdecides.mpr ⟨ha,hkey.symm⟩),fun hlen pk hpk => ?_,fun pk => ?_⟩
    · refine hd.there hlen sig pk fun hmem hsig => ?_
      rw [hpk hmem] at hdecides
      exact Bool.false_ne_true (hdecides.mp hsig).1
    · rw [hd.recent]
      refine if_congr ?_ rfl rfl
      rw [hfenced,hst]
      simp only [hkey.symm,true_and,Option.isSome_some,and_true,and_assoc]
  · rw [if_neg hkey]
    refine ⟨fun _ _ e he => absurd he List.not_mem_nil,fun hlen pk _ => ?_,fun pk => ?_⟩
    · exact hd.there hlen sig pk fun _ hsig => hkey (hdecides.mp hsig).2.symm
    · rw [hd.recent,if_neg fun hcase => hkey (hfenced.mp hcase.1).1.symm]
      exact (if_neg fun hcase => absurd hcase.2.2 List.not_mem_nil).symm

/-- Of the templates of a table, only its own decides for a node. -/
lemma Sound.changeTemplates (h : d.Sound) (stamp : CommitStamp) (ts : TableSchema) (delta : Delta)
    (hst : d.tier.status sig = some st) (tkeys : List String) (hnodup : tkeys.Nodup) :
    d.tier.Keeps (tkeys.foldl (fun d tkey => d.changeTemplate stamp ts delta tkey) d).tier ∧
    (tkeys.foldl (fun d tkey => d.changeTemplate stamp ts delta tkey) d).Sound ∧
    d.DecidedAt (tkeys.foldl (fun d tkey => d.changeTemplate stamp ts delta tkey) d) stamp sig st
      (if st.node.templateKey ∈ tkeys then d.tier.templatePresent ts st.node.templateKey delta else []) := by
  induction tkeys generalizing d with
  | nil =>
    refine ⟨.refl _,h,fun _ _ e he => absurd he List.not_mem_nil,fun _ _ _ => rfl,fun pk => ?_⟩
    exact (if_neg fun hcase => absurd hcase.2.2 List.not_mem_nil).symm
  | cons tkey tkeys ih =>
    obtain ⟨hnot,hnodup⟩ := List.nodup_cons.mp hnodup
    have hd := h.changeTemplate stamp ts delta tkey
    have hat := hd.at_node h hst
    obtain ⟨hkeeps,hsound,hrest⟩ := ih hd.sound (by rw [hd.keeps.status]; exact hst) hnodup
    refine ⟨hd.keeps.trans hkeeps,hsound,?_⟩
    have hlen' : (tkeys.foldl (fun d tkey => d.changeTemplate stamp ts delta tkey)
        (d.changeTemplate stamp ts delta tkey)).tier.pkDict.len ≤ 2^32 →
          (d.changeTemplate stamp ts delta tkey).tier.pkDict.len ≤ 2^32 := hkeeps.grows.len.trans
    rw [hd.keeps.templatePresent] at hrest
    by_cases hkey : tkey = st.node.templateKey
    · subst hkey
      rw [if_neg hnot] at hrest
      rw [if_pos rfl] at hat
      rw [if_pos List.mem_cons_self]
      refine ⟨fun hlen ha e he => ?_,fun hlen pk hpk => ?_,fun pk => ?_⟩
      · rw [List.foldl_cons,hrest.there hlen e.1 fun hmem => absurd hmem List.not_mem_nil]
        exact hat.here (hlen' hlen) ha e he
      · rw [List.foldl_cons,hrest.there hlen pk fun hmem => absurd hmem List.not_mem_nil]
        exact hat.there (hlen' hlen) pk hpk
      · rw [List.foldl_cons,hrest.recent,if_neg fun hcase => absurd hcase.2.2 List.not_mem_nil]
        exact hat.recent pk
    · rw [if_neg hkey] at hat
      have hmem : st.node.templateKey ∈ tkey :: tkeys ↔ st.node.templateKey ∈ tkeys :=
        List.mem_cons.trans (or_iff_right (Ne.symm hkey))
      simp only [hmem]
      refine ⟨hrest.here,fun hlen pk hpk => ?_,fun pk => ?_⟩
      · rw [List.foldl_cons,hrest.there hlen pk hpk]
        exact hat.there (hlen' hlen) pk fun hmem => absurd hmem List.not_mem_nil
      · rw [List.foldl_cons,hrest.recent,hat.recent]
        exact if_congr Iff.rfl rfl (if_neg fun hcase => absurd hcase.2.2 List.not_mem_nil)

end

/-- Some rows of one node, asserted one after the other. -/
lemma Sound.comes_asserts (h : d.Sound) (hlive : d.tier.fixed sig ≠ none) (evals : List (String × Option Value))
    (hnodup : (evals.map (·.1)).Nodup) :
    d.tier.Keeps (evals.foldl (fun d e => d.assert sig e.1 e.2) d).tier ∧
    (evals.foldl (fun d e => d.assert sig e.1 e.2) d).Sound ∧
    (evals.foldl (fun d e => d.assert sig e.1 e.2) d).tier.recentOf = d.tier.recentOf ∧
    ((evals.foldl (fun d e => d.assert sig e.1 e.2) d).tier.pkDict.len ≤ 2^32 →
      (∀ e ∈ evals, (evals.foldl (fun d e => d.assert sig e.1 e.2) d).contribution sig e.1 = e.2) ∧
      ∀ sig' pk, (sig' = sig → pk ∉ evals.map (·.1)) →
        (evals.foldl (fun d e => d.assert sig e.1 e.2) d).contribution sig' pk = d.contribution sig' pk) := by
  induction evals generalizing d with
  | nil => exact ⟨.refl _,h,rfl,fun _ => ⟨fun e he => absurd he List.not_mem_nil,fun _ _ _ => rfl⟩⟩
  | cons e evals ih =>
    obtain ⟨hnot,hnodup⟩ := List.nodup_cons.mp (List.map_cons ▸ hnodup)
    obtain ⟨hkeeps,hrecent⟩ := keeps_assert d sig e.1 e.2
    obtain ⟨-,hsound,hc⟩ := h.comes_assert hlive e.1 e.2
    obtain ⟨hkeeps',hsound',hrecent',hc'⟩ := ih hsound (by rw [hkeeps.fixed]; exact hlive) hnodup
    refine ⟨hkeeps.trans hkeeps',hsound',hrecent'.trans hrecent,fun hlen => ?_⟩
    obtain ⟨hhere,hthere⟩ := hc' hlen
    have hc := hc (hkeeps'.grows.len.trans hlen)
    refine ⟨List.forall_mem_cons.mpr ⟨?_,hhere⟩,fun sig' pk hpk => ?_⟩
    · rw [List.foldl_cons,hthere sig e.1 fun _ => hnot,hc]
      exact if_pos ⟨rfl,rfl⟩
    · rw [List.foldl_cons,hthere sig' pk fun heq hmem => hpk heq (List.mem_cons_of_mem _ hmem),hc]
      refine if_neg ?_
      rintro ⟨heq,rfl⟩
      exact hpk heq List.mem_cons_self

end Draft
end ElectricCircuits
