import ElectricCircuits.Subquery.Membership
import ElectricCircuits.Subquery.Walk

/-! The node tier of the registry: the inner queries under their templates, each with its set in the membership
circuit. A change of a table is decided template by template, and what it decides goes to the circuit as one batch;
what the batch changes of the sets are the flips. -/
namespace ElectricCircuits

inductive FlipDir where
  | enter
  | leave
deriving DecidableEq

structure Flip where
  value : Value
  dir : FlipDir

/-- A change that came while a node was seeded, with its commit. -/
structure BufferedDelta where
  stamp : CommitStamp
  delta : Delta

/-- A node at work. -/
structure LiveNode extends SubqueryNode where
  nodeId : ℕ
  gate : SnapshotGate
  /-- The changes since the node was collected, until its seed is in. -/
  seedBuffer : Option (List BufferedDelta)
  /-- The live decision last taken for a key while some query-back was under way. -/
  recent : AssocMap String CommitStamp
  inflightQuerybacks : ℕ

/-- The nodes of a template that hold a contribution of a row, by the id of its key. -/
abbrev PkNodes := AssocMap ℕ (List SubquerySig)

namespace PkNodes

def holders (m : PkNodes) (id : ℕ) : List SubquerySig := (m.get? id).getD []

def add (m : PkNodes) (id : ℕ) (sig : SubquerySig) : PkNodes := m.modify id [] (·.insert sig)

/-- A row without holders has no entry. -/
def remove (m : PkNodes) (id : ℕ) (sig : SubquerySig) : PkNodes :=
  match m.get? id with
  | none => m
  | some sigs =>
    let left := sigs.filter (· ≠ sig)
    if left.isEmpty then m.erase id else m.insert id left

variable (m : PkNodes) (id id' : ℕ) (sig sig' : SubquerySig)

lemma mem_holders_add : sig' ∈ (m.add id sig).holders id' ↔ id' = id ∧ sig' = sig ∨ sig' ∈ m.holders id' := by
  rw [holders,holders,add,AssocMap.get?_modify]
  by_cases hid : id = id'
  · subst hid
    simp
  · simp [hid,Ne.symm hid]

lemma mem_holders_remove :
    sig' ∈ (m.remove id sig).holders id' ↔ ¬(id' = id ∧ sig' = sig) ∧ sig' ∈ m.holders id' := by
  rw [holders,holders,remove]
  cases hm : m.get? id with
  | none =>
    refine iff_and_self.mpr ?_
    rintro h ⟨rfl,rfl⟩
    simp [hm] at h
  | some sigs =>
    by_cases hid : id' = id
    · subst hid
      dsimp only
      split_ifs with hleft
      · rw [List.isEmpty_iff,List.filter_eq_nil_iff] at hleft
        simp only [AssocMap.get?_erase_self,hm,Option.getD_none,Option.getD_some,List.not_mem_nil,true_and,false_iff]
        rintro ⟨hne,hmem⟩
        exact hleft sig' hmem (by simpa using hne)
      · simp [hm,and_comm]
    · dsimp only
      split_ifs <;> simp [AssocMap.get?_erase,AssocMap.get?_insert_eq,hid,Ne.symm hid]

end PkNodes

/-- A template with the holders of its rows. -/
structure LiveTemplate where
  group : TemplateGroup
  pkNodes : PkNodes

structure NodeTier (D : Dbsp) where
  nodes : AssocMap SubquerySig LiveNode
  templates : AssocMap String LiveTemplate
  nodeById : AssocMap ℕ SubquerySig
  nextNodeId : ℕ
  pkDict : PkDict
  circuit : MembershipCircuit D

/-- The tier, with the assertions that are on their way to the circuit. -/
structure Draft (D : Dbsp) where
  tier : NodeTier D
  asserts : List (PkKey × Assert)

/-- The key of a row, which is empty for a row without one. -/
def TableSchema.pkOf (ts : TableSchema) (r : Row) : String := (ts.keyString r).toOption.getD ""

lemma TableSchema.pkOf_eq {ts : TableSchema} {r : Row} (h : ts.IsRow r) : ts.pkOf r = ts.name r := by
  rw [pkOf,keyString_eq h]
  rfl

namespace NodeTier
variable {D : Dbsp} (T : NodeTier D)

def empty : NodeTier D := ⟨.empty,.empty,.empty,1,.empty,.start⟩

/-- The sets of the nodes, as the circuit has them. -/
def sets : NodeSets := fun sig v => (T.nodes.get? sig).any fun n => T.circuit.contains n.nodeId v

def editNode (sig : SubquerySig) (f : LiveNode → LiveNode) : NodeTier D :=
  match T.nodes.get? sig with
  | some n => { T with nodes := T.nodes.insert sig (f n) }
  | none => T

def editPkNodes (tkey : String) (f : PkNodes → PkNodes) : NodeTier D :=
  match T.templates.get? tkey with
  | some t => { T with templates := T.templates.insert tkey { t with pkNodes := f t.pkNodes } }
  | none => T

def group (tkey : String) : Option TemplateGroup := (T.templates.get? tkey).map (·.group)

/-- The nodes of a template that hold a contribution of a row. -/
def holders (tkey : String) (id : ℕ) : List SubquerySig :=
  ((T.templates.get? tkey).map fun t => t.pkNodes.holders id).getD []

/-- The nodes of a template, by its binds. -/
def bound (tkey : String) : List SubquerySig := ((T.group tkey).map fun g => g.binds.values).getD []

/-- A key gets its id. -/
def intern (pk : String) : NodeTier D := { T with pkDict := (T.pkDict.getOrInsert pk).2 }

/-- Assert what a row contributes to a node; the holders follow. A row that contributes nothing is retracted where it
was held. -/
def assertNodeRow (sig : SubquerySig) (pk : String) (present : Option Value) :
    NodeTier D × Option (PkKey × Assert) :=
  match T.nodes.get? sig with
  | none => (T,none)
  | some n =>
    let id := (T.pkDict.getOrInsert pk).1
    match present with
    | some v => ((T.intern pk).editPkNodes n.templateKey (·.add id sig),some (⟨n.nodeId,id⟩,.insert v))
    | none => ((T.intern pk).editPkNodes n.templateKey (·.remove id sig),
      if sig ∈ T.holders n.templateKey id then some (⟨n.nodeId,id⟩,.delete) else none)

/-- Hand the assertions to the circuit; its deltas are flips of the nodes that are still there. -/
def applyAsserts (asserts : List (PkKey × Assert)) : NodeTier D × List (SubquerySig × Flip) :=
  let r := T.circuit.apply asserts
  ({ T with circuit := r.1 },r.2.filterMap fun d =>
    (T.nodeById.get? d.nodeId).map fun sig => (sig,⟨d.value,if 0 < d.delta then .enter else .leave⟩))

end NodeTier

namespace Draft
variable {D : Dbsp} (d : Draft D)

def assert (sig : SubquerySig) (pk : String) (present : Option Value) : Draft D :=
  let r := d.tier.assertNodeRow sig pk present
  ⟨r.1,d.asserts ++ r.2.toList⟩

end Draft

namespace NodeTier
variable {D : Dbsp} (T : NodeTier D)

/-- A change is decided for a node that is seeded, unless its seed saw the change. -/
def nodeApplies (stamp : CommitStamp) (sig : SubquerySig) : Bool :=
  (T.nodes.get? sig).any fun n => n.seedBuffer.isNone && !n.gate.shouldSkip stamp.1 stamp.2

/-- The nodes of a template whose decisions have a read to beat. -/
def fenced (tkey : String) (stamp : CommitStamp) : List SubquerySig :=
  (T.bound tkey).filter fun sig =>
    (T.nodes.get? sig).any (fun n => decide (0 < n.inflightQuerybacks)) && T.nodeApplies stamp sig

def record (pk : String) (stamp : CommitStamp) (sig : SubquerySig) : NodeTier D :=
  T.editNode sig fun n => { n with recent := n.recent.insert pk stamp }

/-- Where the newest row of each key of a change belongs under a template. -/
def templatePresent (ts : TableSchema) (tkey : String) (delta : Delta) : List (String × Option (SubquerySig × Value)) :=
  match T.group tkey with
  | none => []
  | some g => (latestRowsByPk ts delta).entries.map fun c => (c.1,g.target T.sets.eval c.2.1 c.2.2)

/-- Nodes that are being seeded keep the change for later. -/
def bufferDelta (b : BufferedDelta) (sig : SubquerySig) : NodeTier D :=
  T.editNode sig fun n => { n with seedBuffer := n.seedBuffer.map (· ++ [b]) }

end NodeTier

namespace Draft
variable {D : Dbsp} (d : Draft D) (stamp : CommitStamp)

def assertIf (sig : SubquerySig) (pk : String) (present : Option Value) : Draft D :=
  if d.tier.nodeApplies stamp sig then d.assert sig pk present else d

/-- One row: its decision is recorded for every node with a read to beat, the nodes that held it without being where
it belongs lose it, and the node where it belongs has its value. -/
def decideRow (tkey : String) (fenced : List SubquerySig) (e : String × Option (SubquerySig × Value)) : Draft D :=
  let d : Draft D := ⟨fenced.foldl (fun T sig => T.record e.1 stamp sig) d.tier,d.asserts⟩
  let holders := ((d.tier.pkDict.get e.1).map (d.tier.holders tkey)).getD []
  let d := holders.foldl (fun d sig =>
    if e.2.any (·.1 == sig) then d else d.assertIf stamp sig e.1 none) d
  match e.2 with
  | some (sig,v) => d.assertIf stamp sig e.1 (some v)
  | none => d

def templateAssertions (tkey : String) (evals : List (String × Option (SubquerySig × Value))) : Draft D :=
  evals.foldl (fun d' e => d'.decideRow stamp tkey (d.tier.fenced tkey stamp) e) d

/-- One template of the table that changed. -/
def changeTemplate (ts : TableSchema) (delta : Delta) (tkey : String) : Draft D :=
  let T := (d.tier.bound tkey).foldl (fun T sig => T.bufferDelta ⟨stamp,delta⟩ sig) d.tier
  Draft.templateAssertions ⟨T,d.asserts⟩ stamp tkey (T.templatePresent ts tkey delta)

end Draft

namespace NodeTier
variable {D : Dbsp} (T : NodeTier D) (ts : TableSchema)

/-- The templates of a table. -/
def templatesOf (table : String) : List String := (T.templates.filter fun _ t => t.group.innerTable = table).keys

/-- A change of a table: one batch over its templates. -/
def onTableDelta (delta : Delta) (stamp : CommitStamp) : NodeTier D × List (SubquerySig × Flip) :=
  let d := (T.templatesOf ts.table).foldl (fun d tkey => d.changeTemplate stamp ts delta tkey)
    (⟨T,[]⟩ : Draft D)
  d.tier.applyAsserts d.asserts

/-- What some rows contribute to one node, as one batch. -/
def applyNodeEvals (sig : SubquerySig) (evals : List (String × Option Value)) :
    NodeTier D × List (SubquerySig × Flip) :=
  let d := evals.foldl (fun d e => d.assert sig e.1 e.2) (⟨T,[]⟩ : Draft D)
  d.tier.applyAsserts d.asserts

/-- What the rows of a read contribute, but for those decided by a commit that the read did not see. -/
def nodeQuerybackEvals (n : LiveNode) (rows : List Row) (gate : SnapshotGate) : List (String × Option Value) :=
  (rows.filter fun r => gate.keeps (n.recent.get? (ts.pkOf r))).map fun r =>
    (ts.pkOf r,if n.pred.matchesCtx r T.sets.eval then some (r.cell n.projCol) else none)

/-- The rows of a read, reconciled with the node. -/
def queryBack (sig : SubquerySig) (rows : List Row) (gate : SnapshotGate) : NodeTier D × List (SubquerySig × Flip) :=
  match T.nodes.get? sig with
  | none => (T,[])
  | some n => T.applyNodeEvals sig (T.nodeQuerybackEvals ts n rows gate)

def beginNodeQueryback (sig : SubquerySig) : NodeTier D :=
  T.editNode sig fun n => { n with inflightQuerybacks := n.inflightQuerybacks+1 }

/-- The last read to end forgets the decisions. -/
def endNodeQueryback (sig : SubquerySig) : NodeTier D :=
  T.editNode sig fun n => { n with
    inflightQuerybacks := n.inflightQuerybacks-1
    recent := if n.inflightQuerybacks-1 = 0 then .empty else n.recent }

/-- A node that is not there yet joins the template of its key. It keeps the changes of its table until it is seeded. -/
def collectNode (node : SubqueryNode) (group : TemplateGroup) : NodeTier D :=
  let t := (T.templates.get? node.templateKey).getD ⟨{ group with binds := .empty },.empty⟩
  { T with
    nodes := T.nodes.insert node.sig ⟨node,T.nextNodeId,.passthrough,some [],.empty,0⟩
    templates := T.templates.insert node.templateKey
      { t with group := { t.group with binds := t.group.binds.insert node.bind node.sig } }
    nodeById := T.nodeById.insert T.nextNodeId node.sig
    nextNodeId := T.nextNodeId+1 }

/-- What the newest row of each key of a change contributes to a node, a key seen leaving contributing nothing. -/
def nodePresentValues (n : LiveNode) (delta : Delta) : List (String × Option Value) :=
  let seen := delta.foldl (fun seen t => if ts.pkOf t.1 ∈ seen then seen else seen ++ [ts.pkOf t.1]) []
  let newrow : AssocMap String Row := delta.foldl (fun m t => if 0 < t.2 then m.insert (ts.pkOf t.1) t.1 else m) .empty
  seen.map fun pk => (pk,(newrow.get? pk).bind fun r =>
    if n.pred.matchesCtx r T.sets.eval then some (r.cell n.projCol) else none)

/-- The decisions of a batch are recorded where a read is under way. -/
def recordNodeRecency (sig : SubquerySig) (pks : List String) (stamp : CommitStamp) : NodeTier D :=
  if (T.nodes.get? sig).any fun n => decide (0 < n.inflightQuerybacks) then
    pks.foldl (fun T pk => T.record pk stamp sig) T
  else T

/-- A change that was kept is decided when the seed is in. -/
def replayDelta (sig : SubquerySig) (b : BufferedDelta) : NodeTier D × List (SubquerySig × Flip) :=
  match T.nodes.get? sig with
  | none => (T,[])
  | some n =>
    let evals := T.nodePresentValues ts n b.delta
    (T.recordNodeRecency sig (evals.map (·.1)) b.stamp).applyNodeEvals sig evals

/-- The rows of a seed go in, and nothing follows from what they change; the changes that were kept follow, with their
flips. -/
def installSeed (sig : SubquerySig) (rows : List Row) (gate : SnapshotGate) : NodeTier D × List (SubquerySig × Flip) :=
  match T.nodes.get? sig with
  | none => (T,[])
  | some n =>
    let seeded := ((T.editNode sig ({ · with gate := gate })).applyNodeEvals sig
      (rows.map fun r => (ts.pkOf r,some (r.cell n.projCol)))).1
    (n.seedBuffer.getD []).foldl (fun r b =>
      let next := r.1.replayDelta ts sig b
      (next.1,r.2 ++ next.2)) (seeded.editNode sig ({ · with seedBuffer := none }),[])

end NodeTier

namespace NodeTier
variable {D : Dbsp} (T : NodeTier D)

/-- A bind is taken out of its template; a template without binds goes. -/
def unbind (tkey : String) (bind : Row) : NodeTier D :=
  match T.templates.get? tkey with
  | none => T
  | some t =>
    let binds := t.group.binds.erase bind
    if binds.isEmpty then { T with templates := T.templates.erase tkey }
    else { T with templates := T.templates.insert tkey { t with group := { t.group with binds := binds } } }

def removeNodeEntry (n : LiveNode) : NodeTier D :=
  { T.unbind n.templateKey n.bind with nodeById := T.nodeById.erase n.nodeId }

end NodeTier

/-- A node at the end of its life: its contributions are retracted, and its entries go. -/
def Draft.removeNode {D : Dbsp} (d : Draft D) (sig : SubquerySig) : Draft D :=
  match d.tier.nodes.get? sig with
  | none => d
  | some n =>
    let held := (d.tier.circuit.contributorEntries n.nodeId).map (·.1)
    let T : NodeTier D := { d.tier with nodes := d.tier.nodes.erase sig }
    ⟨(held.foldl (fun T id => T.editPkNodes n.templateKey (·.remove id sig)) T).removeNodeEntry n,
      d.asserts ++ held.map fun id => (⟨n.nodeId,id⟩,.delete)⟩

/-- Nodes that nothing depends on any more; what their going changes of the sets moves nothing. -/
def NodeTier.removeNodes {D : Dbsp} (T : NodeTier D) (sigs : List SubquerySig) : NodeTier D :=
  let d := sigs.foldl Draft.removeNode (⟨T,[]⟩ : Draft D)
  (d.tier.applyAsserts d.asserts).1

end ElectricCircuits
