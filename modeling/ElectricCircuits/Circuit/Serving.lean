import ElectricCircuits.Circuit.Plan
import ElectricCircuits.Lib.GroupSum
import ElectricCircuits.Lib.Replay
import ElectricCircuits.TableExec

/-! The counts pipelines and the COUNT aggregates that are served from them. A pipeline keeps what it was
fed; its groups are those of the weighted count. -/
namespace ElectricCircuits

/-- A COUNT served from the counts of a table: the sum over the groups that match. -/
structure CircuitAgg where
  streamPath : String
  constraints : Constraints
  value : ℤ

def CircuitAgg.envelope (agg : CircuitAgg) (table : String) (txid lsn : Option String) : Envelope :=
  aggEnvelope table (.int agg.value) agg.value txid lsn

/-- One change of the log for the circuit, with its replication stamps. -/
structure StampedDelta where
  table : String
  delta : Delta
  lsn : Option ℕ
  seq : Option ℕ

def StampedDelta.position (d : StampedDelta) : Option (ℕ ×ₗ ℕ) :=
  match d.lsn,d.seq with
  | some l,some seq => some (toLex (l,seq))
  | _,_ => none

/-- By how much a step of the circuit moved the count of a group. -/
structure CountDelta where
  table : String
  group : Row
  delta : ℤ

structure CountsPipeline where
  groupCols : List ℕ
  input : Delta
  seeded : Bool

namespace CountsPipeline

def start (groupCols : List ℕ) : CountsPipeline := ⟨groupCols,[],false⟩

/-- One synthetic row for each group, weighted by its count. -/
def seedGroups (p : CountsPipeline) (groups : List (Row × ℤ)) : CountsPipeline :=
  { p with input := p.input ++ groups }

def finishSeed (p : CountsPipeline) : CountsPipeline := { p with seeded := true }

def countGroups (p : CountsPipeline) : Option (List (Row × ℤ)) :=
  if p.seeded then some (GroupSum.groups (project · p.groupCols) p.input) else none

end CountsPipeline

structure Arrangements where
  counts : AssocMap String CountsPipeline
  highwater : Option (ℕ ×ₗ ℕ)

namespace Arrangements

def countsGroupCols (arr : Arrangements) (table : String) : Option (List ℕ) :=
  (arr.counts.get? table).map (·.groupCols)

def countGroups (arr : Arrangements) (table : String) : Option (List (Row × ℤ)) :=
  (arr.counts.get? table).bind CountsPipeline.countGroups

/-- What a batch feeds to one table. -/
def inputOf (deltas : List StampedDelta) (table : String) : Delta :=
  (deltas.filter (·.table == table)).flatMap (·.delta)

/-- The circuit thread on one batch: what its highwater covers is skipped, the rest is fed, and one step
tells how the groups of every pipeline moved. -/
def applyBatch (arr : Arrangements) (deltas : List StampedDelta) : Arrangements × List CountDelta :=
  let r := Replay.dedup StampedDelta.position arr.highwater deltas
  ({ counts := arr.counts.mapValues fun table p => { p with input := p.input ++ inputOf r.2 table }
     highwater := r.1 },
    arr.counts.entries.flatMap fun c =>
      (GroupSum.groups (project · c.2.groupCols) (inputOf r.2 c.1)).map fun g => ⟨c.1,g.1,g.2⟩)

end Arrangements

/-- A change of the log as the circuit takes it; `none` for a table without a counts pipeline, for an empty
delta, and for what the seed snapshot contains. -/
def stampedDeltaForArrangements (tables : String → Option TableSchema) (arr : Arrangements)
    (arrGates : AssocMap String SnapshotGate) (env : Envelope) : Option StampedDelta := do
  let _ ← arr.countsGroupCols env.type_
  let ts ← tables env.type_
  let (delta,txid,lsn) ← (applyEnvelope ts env).toOption
  if delta.isEmpty then none
  else if (arrGates.get? env.type_).any fun gate => Stamp.skips ⟨txid,lsn⟩ gate then none
  else some ⟨env.type_,delta,lsn.map lsnToU64,env.headers.seq⟩

/-- The record of an aggregate and what the executor of its table keeps of it; the ids of the executors'
aggregates are those of the engine's shapes. -/
structure Served where
  table : String
  whereJson : Option PredicateJson
  agg : CircuitAgg

abbrev ServedAggs := AssocMap String Served

/-- The aggregate as it starts: the sum over the groups that match. -/
def createCircuitAgg (arr : Arrangements) (table streamPath : String) (constraints : Constraints) :
    Option CircuitAgg :=
  (arr.countGroups table).map fun groups =>
    ⟨streamPath,constraints,GroupSum.weight constraints.groupMatches groups⟩

/-- The aggregate counts the group that a count delta is about. -/
def Served.counts (a : Served) (d : CountDelta) : Bool :=
  a.table == d.table && a.agg.constraints.groupMatches d.group

def Served.add (a : Served) (d : CountDelta) : Served :=
  if a.counts d then { a with agg := { a.agg with value := a.agg.value+d.delta } } else a

/-- The aggregates that a transaction touches, in the order of first touch. -/
def changedAggs (aggs : ServedAggs) (deltas : List CountDelta) : List String :=
  deltas.foldl (fun changed d => aggs.entries.foldl (fun changed e =>
    if e.2.counts d ∧ e.1 ∉ changed then changed ++ [e.1] else changed) changed) []

/-- Fold the count deltas of one transaction, and stage one envelope for each aggregate it touched. -/
def applyCountDeltas (aggs : ServedAggs) (deltas : List CountDelta) (txid lsn : Option String) :
    ServedAggs × Staged :=
  let aggs' := deltas.foldl (fun m d => m.mapValues fun _ a => a.add d) aggs
  (aggs',(changedAggs aggs deltas).filterMap fun sid =>
    (aggs'.get? sid).map fun a => (a.agg.streamPath,[a.agg.envelope a.table txid lsn]))

/-- A test that sees a row only up to the equality of its cells. -/
def Row.Respects (q : Row → Bool) : Prop := ∀ a b : Row, (a == b) = true → q a = q b

lemma Row.cell_beq {a b : Row} (h : (a == b) = true) (i : ℕ) : (a.cell i == b.cell i) = true := by
  rw [Value.beq_iff_code]
  have hcodes := congrArg (fun l => l[i]?) ((Row.beq_iff_codes a b).mp h)
  simp only [List.getElem?_map] at hcodes
  rw [Row.cell,Row.cell,List.getD_eq_getElem?_getD,List.getD_eq_getElem?_getD]
  cases ha : a.cells[i]? <;> cases hb : b.cells[i]? <;> simp_all

lemma project_beq {a b : Row} (h : (a == b) = true) (cols : List ℕ) :
    (project a cols == project b cols) = true := by
  rw [Row.beq_iff_codes,project,project,List.map_map,List.map_map]
  exact List.map_congr_left fun i _ => (Value.beq_iff_code _ _).mp (Row.cell_beq h i)

lemma Row.Respects.project {q : Row → Bool} (hq : Row.Respects q) (cols : List ℕ) :
    Row.Respects fun r => q (project r cols) :=
  fun _ _ h => hq _ _ (project_beq h cols)

lemma contains_congr {keys : List Value} {v w : Value} (h : (v == w) = true) :
    keys.contains v = keys.contains w := by
  rw [Bool.eq_iff_iff,contains_iff,contains_iff]
  exact exists_congr fun k => and_congr_right fun _ =>
    ⟨fun hk => BEq.trans hk h,fun hk => BEq.trans hk (BEq.symm h)⟩

/-- Groups that are equal cell by cell match alike. -/
lemma respects_groupMatches (cs : Constraints) : Row.Respects cs.groupMatches := by
  intro a b h
  have hcodes := (Row.beq_iff_codes a b).mp h
  refine congrArg (fun f => cs.zipIdx.all f) (funext fun c => ?_)
  cases c.1 with
  | none => rfl
  | some keys =>
    have hi := congrArg (fun l => l[c.2]?) hcodes
    simp only [List.getElem?_map] at hi
    cases ha : a.cells[c.2]? with
    | none =>
      cases hb : b.cells[c.2]? with
      | none => rfl
      | some w => simp [ha,hb] at hi
    | some v =>
      cases hb : b.cells[c.2]? with
      | none => simp [ha,hb] at hi
      | some w =>
        rw [ha,hb] at hi
        exact contains_congr ((Value.beq_iff_code v w).mpr (Option.some.inj hi))

section
variable {aggs : ServedAggs} {deltas : List CountDelta} {txid lsn : Option String} {sid : String}

/-- What the deltas add to an aggregate. -/
def Served.gain (a : Served) (deltas : List CountDelta) : ℤ :=
  ((deltas.filter a.counts).map (·.delta)).sum

lemma foldl_add (a : Served) (deltas : List CountDelta) : deltas.foldl Served.add a =
    { a with agg := { a.agg with value := a.agg.value+a.gain deltas } } := by
  induction deltas generalizing a with
  | nil => simp [Served.gain]
  | cons d deltas ih =>
    rw [List.foldl_cons,ih]
    cases h : a.counts d with
    | false => simp [Served.add,Served.gain,h]
    | true =>
      have hsame : (a.add d).counts = a.counts := by
        rw [Served.add,if_pos h]
        rfl
      simp only [Served.gain,hsame,List.filter_cons,h,if_true,List.map_cons,List.sum_cons]
      simp only [Served.add,h,if_true,add_assoc]

/-- Every aggregate moves by what it gains, and stays what it is otherwise. -/
lemma get?_applyCountDeltas : (applyCountDeltas aggs deltas txid lsn).1.get? sid =
    (aggs.get? sid).map fun a => { a with agg := { a.agg with value := a.agg.value+a.gain deltas } } := by
  simp only [applyCountDeltas,← foldl_add]
  induction deltas generalizing aggs with
  | nil => simp
  | cons d deltas ih =>
    rw [List.foldl_cons,ih,AssocMap.get?_mapValues,Option.map_map]
    rfl

lemma mem_changedAggs : sid ∈ changedAggs aggs deltas ↔
    ∃ d ∈ deltas, ∃ a, aggs.get? sid = some a ∧ a.counts d = true := by
  have hinner : ∀ (d : CountDelta) (l : List (String × Served)) (changed : List String),
      sid ∈ l.foldl (fun changed e =>
        if e.2.counts d ∧ e.1 ∉ changed then changed ++ [e.1] else changed) changed ↔
      sid ∈ changed ∨ ∃ e ∈ l, e.1 = sid ∧ e.2.counts d = true := by
    intro d l
    induction l with
    | nil => simp
    | cons e l ih =>
      intro changed
      rw [List.foldl_cons,ih]
      by_cases he : e.2.counts d = true ∧ e.1 ∉ changed
      · rw [if_pos he]
        simp only [List.mem_append,List.mem_cons,exists_eq_or_imp]
        grind
      · rw [if_neg he]
        simp only [List.mem_cons,exists_eq_or_imp]
        grind
  have houter : ∀ changed : List String,
      sid ∈ deltas.foldl (fun changed d => aggs.entries.foldl (fun changed e =>
        if e.2.counts d ∧ e.1 ∉ changed then changed ++ [e.1] else changed) changed) changed ↔
      sid ∈ changed ∨ ∃ d ∈ deltas, ∃ a, aggs.get? sid = some a ∧ a.counts d = true := by
    induction deltas with
    | nil => simp
    | cons d deltas ih =>
      intro changed
      rw [List.foldl_cons,ih,hinner,or_assoc]
      simp only [List.mem_cons,exists_eq_or_imp]
      refine or_congr_right (or_congr_left ?_)
      constructor
      · rintro ⟨⟨k,a⟩,he,rfl,hc⟩
        exact ⟨a,(AssocMap.mem_entries ..).mp he,hc⟩
      · exact fun ⟨a,ha,hc⟩ => ⟨(sid,a),(AssocMap.mem_entries ..).mpr ha,rfl,hc⟩
  simpa [changedAggs] using houter []

/-- What a transaction stages: the new value of an aggregate that it touched. -/
lemma mem_staged {path : String} {envs : List Envelope} :
    (path,envs) ∈ (applyCountDeltas aggs deltas txid lsn).2 ↔
      ∃ sid a, (applyCountDeltas aggs deltas txid lsn).1.get? sid = some a ∧
        sid ∈ changedAggs aggs deltas ∧ a.agg.streamPath = path ∧
        envs = [a.agg.envelope a.table txid lsn] := by
  simp only [applyCountDeltas,List.mem_filterMap,Option.map_eq_some_iff,Prod.mk.injEq]
  constructor
  · rintro ⟨sid,hsid,a,ha,hpath,henvs⟩
    exact ⟨sid,a,ha,hsid,hpath,henvs.symm⟩
  · rintro ⟨sid,a,ha,hsid,hpath,henvs⟩
    exact ⟨sid,hsid,a,ha,hpath,henvs.symm⟩

end

section
variable {arr : Arrangements} {table : String} {p : CountsPipeline} {deltas : List StampedDelta}

/-- What a batch that gets through adds to an aggregate: the weight that matches of what it feeds. -/
lemma gain_applyBatch {a : Served} (hp : arr.counts.get? a.table = some p) :
    a.gain (arr.applyBatch deltas).2 =
      GroupSum.weight (fun r => a.agg.constraints.groupMatches (project r p.groupCols))
        (Arrangements.inputOf (Replay.dedup StampedDelta.position arr.highwater deltas).2 a.table) := by
  rw [Served.gain,Arrangements.applyBatch]
  dsimp only
  rw [AssocMap.filter_flatMap _ _ _ hp]
  · have hweight := GroupSum.weight_groups (respects_groupMatches a.agg.constraints)
      (project · p.groupCols)
      (Arrangements.inputOf (Replay.dedup StampedDelta.position arr.highwater deltas).2 a.table)
    rw [show (fun r => a.agg.constraints.groupMatches (project r p.groupCols)) =
      a.agg.constraints.groupMatches ∘ (project · p.groupCols) from rfl,← hweight,GroupSum.weight,
      List.filter_map,List.map_map]
    simp [Function.comp_def,Served.counts]
  · rintro ⟨t,q⟩ - c hc hcounts
    obtain ⟨g,-,rfl⟩ := List.mem_map.mp hc
    simp only [Served.counts,Bool.and_eq_true,beq_iff_eq] at hcounts
    exact hcounts.1.symm

lemma get?_applyBatch : (arr.applyBatch deltas).1.counts.get? table =
    (arr.counts.get? table).map fun p =>
      { p with
        input := p.input ++
          Arrangements.inputOf (Replay.dedup StampedDelta.position arr.highwater deltas).2 table } :=
  AssocMap.get?_mapValues ..

/-- An aggregate starts at the weight that matches of what its pipeline was fed. -/
lemma createCircuitAgg_eq (hp : arr.counts.get? table = some p) (hs : p.seeded = true)
    (streamPath : String) (cs : Constraints) :
    createCircuitAgg arr table streamPath cs = some ⟨streamPath,cs,
      GroupSum.weight (fun r => cs.groupMatches (project r p.groupCols)) p.input⟩ := by
  rw [createCircuitAgg,Arrangements.countGroups,hp,Option.bind_some,CountsPipeline.countGroups,if_pos hs,
    Option.map_some,GroupSum.weight_groups (respects_groupMatches cs)]
  rfl

end
end ElectricCircuits
