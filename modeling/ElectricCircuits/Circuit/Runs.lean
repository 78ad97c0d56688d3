import ElectricCircuits.Circuit.Serving
import ElectricCircuits.SnapshotFence
import ElectricCircuits.StreamFold

/-! Runs of the counts layer: it is seeded from a snapshot at every boot, takes the change log with repeats,
and aggregates start and stop in between. -/
namespace ElectricCircuits

/-- A change as the source committed it: the envelope that brings it, its transaction and its row. -/
structure LogEntry where
  env : Envelope
  xid : ℕ
  row : RowChange Row

def LogEntry.of (table : String) (e : LogEntry) : Bool := e.env.type_ == table

/-- The source: every change is stamped, in the order of the stamps, with the word of its transaction's id,
carries both its images, and fits where it comes. -/
structure SourceLog (tables : String → Option TableSchema) (initial : String → Finset Row)
    (L : List LogEntry) : Prop where
  stamped : ∀ e ∈ L, e.env.position.isSome
  ordered : L.Pairwise fun d e => ∀ p ∈ d.env.position, ∀ q ∈ e.env.position, p < q
  words : ∀ e ∈ L, e.env.headers.txid = some (low32 e.xid).repr
  carries : ∀ e ∈ L, ∀ ts, tables e.env.type_ = some ts → Carries ts e.env e.row.old e.row.new
  runs : ∀ table ts, tables table = some ts →
    History.Runs ts.identity LogEntry.row (initial table) (L.filter (·.of table))

/-- The rows of a table after a part of the log. -/
def tableAfter (initial : String → Finset Row) (table : String) (L : List LogEntry) : Finset Row :=
  History.after LogEntry.row (initial table) (L.filter (·.of table))

/-- The row that stands for a group: only the group columns have their values. -/
def groupRow (ts : TableSchema) (groupCols : List ℕ) (r : Row) : Row :=
  ⟨(List.range ts.columns.length).map fun i => if i ∈ groupCols then r.cell i else .null⟩

/-- What a boot reads of a table in one snapshot. -/
structure TableSeed where
  schema : TableSchema
  groupCols : List ℕ
  inRange : ∀ i ∈ groupCols, i < schema.columns.length
  rows : List Row
  snapshot : PgSnapshot
  seedLsn : String

namespace TableSeed

/-- `SELECT <group cols>, count(*) … GROUP BY`, grouped as cells are compared. -/
def backfillGroupCounts (seed : TableSeed) : List (Row × ℤ) :=
  GroupSum.groups (groupRow seed.schema seed.groupCols) (seed.rows.map (·,1))

def gate (seed : TableSeed) : SnapshotGate := SnapshotGate.parse seed.snapshot.text seed.seedLsn

def pipeline (seed : TableSeed) : CountsPipeline :=
  ((CountsPipeline.start seed.groupCols).seedGroups seed.backfillGroupCounts).finishSeed

def shows (seed : TableSeed) (e : LogEntry) : Bool := decide (seed.snapshot.Shows e.xid)

/-- The rows that the changes shown by the snapshot leave; and a change is shown only after the changes of
its row before it, for the transactions that write one row come one after the other. -/
structure Sees (seed : TableSeed) (t : Finset Row) (changes : List LogEntry) : Prop where
  nodup : seed.rows.Nodup
  rows : seed.rows.toFinset = History.after LogEntry.row t (changes.filter seed.shows)
  closed : changes.Pairwise fun d e => seed.shows e = true → seed.shows d = false →
    d.row.Independent seed.schema.identity e.row

end TableSeed

structure CircuitServing where
  arr : Arrangements
  seeds : AssocMap String TableSeed
  aggs : ServedAggs
  streams : String → List Envelope
  /-- How many changes of the log are processed. -/
  next : ℕ

namespace CircuitServing

def start : CircuitServing := ⟨⟨.empty,none⟩,.empty,.empty,fun _ => [],0⟩

def arrGates (s : CircuitServing) : AssocMap String SnapshotGate := s.seeds.mapValues fun _ seed => seed.gate

/-- `maybe_start_arrangements`: every configured table is seeded before the sequencer starts, here at the
checkpoint `next`. Streams outlive the process. -/
def boot (s : CircuitServing) (seeds : AssocMap String TableSeed) (next : ℕ) : CircuitServing where
  arr := ⟨seeds.mapValues fun _ seed => seed.pipeline,none⟩
  seeds := seeds
  aggs := .empty
  streams := s.streams
  next := next

/-- The appends of a transaction. -/
def flush (streams : String → List Envelope) (staged : Staged) : String → List Envelope :=
  fun path => streams path ++ (staged.filter (·.1 == path)).flatMap (·.2)

/-- One transaction of a page, or the part of one that the page has. -/
def deliver (tables : String → Option TableSchema) (s : CircuitServing) (batch : List LogEntry)
    (txid lsn : Option String) (next : ℕ) : CircuitServing :=
  let deltas := batch.filterMap fun e => stampedDeltaForArrangements tables s.arr s.arrGates e.env
  let r := s.arr.applyBatch deltas
  let out := applyCountDeltas s.aggs r.2 txid lsn
  { s with arr := r.1, aggs := out.1, streams := flush s.streams out.2, next := next }

inductive Act where
  | boot (seeds : AssocMap String TableSeed) (next : ℕ)
  | create (sid table : String) (whereJson : Option PredicateJson)
  | remove (sid : String)
  | deliver (batch : List LogEntry)

variable (parseF64 : String → Option OrderedFloat) (tables : String → Option TableSchema)
  (initial : String → Finset Row) (L : List LogEntry)

inductive Step : CircuitServing → Act → CircuitServing → Prop where
  | boot {s : CircuitServing} {seeds : AssocMap String TableSeed} {next : ℕ}
      (hnext : next ≤ s.next)
      (hseeds : ∀ table seed, seeds.get? table = some seed → tables table = some seed.schema ∧
        seed.Sees (initial table) (L.filter (·.of table))) :
      Step s (.boot seeds next) (s.boot seeds next)
  | create {s : CircuitServing} {sid table : String} {whereJson : Option PredicateJson}
      {ts : TableSchema} {cols : List ℕ} {cs : Constraints} {agg : CircuitAgg}
      (hfresh : s.aggs.get? sid = none) (hts : tables table = some ts)
      (hcols : s.arr.countsGroupCols table = some cols)
      (hplan : planCircuitAgg parseF64 ts whereJson cols = some cs)
      (hagg : createCircuitAgg s.arr table ("shape/" ++ sid) cs = some agg) :
      Step s (.create sid table whereJson)
        { s with
          aggs := s.aggs.insert sid ⟨table,whereJson,agg⟩
          streams := flush s.streams [(agg.streamPath,[agg.envelope table none none])] }
  | remove {s : CircuitServing} {sid : String} :
      Step s (.remove sid) { s with aggs := s.aggs.erase sid }
  /-- A page starts where what is processed ends, or before it; the changes of a transaction come
  together. -/
  | deliver {s : CircuitServing} {before batch after : List LogEntry} {txid lsn : Option String}
      (hL : L = before ++ batch ++ after) (hnext : before.length ≤ s.next)
      (hrun : ∀ e ∈ batch, e.env.runKey = (txid,lsn)) :
      Step s (.deliver batch)
        (s.deliver tables batch txid lsn (max s.next (before.length+batch.length)))

/-- For one table: a boot's snapshot shows what the checkpoint has behind it, and the words of the snapshot
do not mislead its gate about a transaction. -/
def Allowed (table : String) (s : CircuitServing) : Act → Prop
  | .boot seeds next => ∀ seed, seeds.get? table = some seed →
      ∀ e ∈ L.take next, e.of table = true → seed.shows e = true
  | .deliver batch => ∀ seed, s.seeds.get? table = some seed →
      ∀ e ∈ batch, e.of table = true → ¬seed.snapshot.Misread e.xid
  | .create _ _ _ | .remove _ => True

def GuardedSteps (table : String) (s t : CircuitServing) : Prop :=
  ∃ a, Allowed L table s a ∧ Step parseF64 tables initial L s a t

/-- The rows of a table as its counts see it: what the seed shows, and what else is processed. -/
def seenTable (table : String) (seed : TableSeed) (processed : List LogEntry) : Finset Row :=
  History.after LogEntry.row (initial table) ((L.filter (·.of table)).filter seed.shows ++
    (processed.filter (·.of table)).filter (!seed.shows ·))

/-- What a change that the seed does not show feeds to the counts of a table. -/
def unseen (table : String) (seed : TableSeed) (e : LogEntry) : Delta :=
  if e.of table && !seed.shows e then imageDelta e.row.old e.row.new else []

section
variable {parseF64 tables initial L} {table : String} {seed : TableSeed} {q : Row → Bool}

lemma weight_imageDelta (hq : Row.Respects q) (old new : Option Row) :
    GroupSum.weight q (imageDelta old new) =
      ((new.toFinset.filter (q ·)).card : ℤ)-(old.toFinset.filter (q ·)).card := by
  have hsingle : ∀ r : Row, ((({r} : Finset Row).filter (q ·)).card : ℤ) = if q r then 1 else 0 := by
    intro r
    rw [Finset.filter_singleton]
    split_ifs <;> rfl
  cases old with
  | none => cases new <;> simp [imageDelta,hsingle]
  | some o =>
    cases new with
    | none => cases ho : q o <;> simp [imageDelta,hsingle,ho]
    | some n =>
      rw [imageDelta]
      by_cases heq : (o == n) = true
      · simp [hsingle,heq,hq o n heq]
      · cases ho : q o <;> cases hn : q n <;> simp [hsingle,heq,ho,hn]

/-- A change that the seed shows, or of another table, is not fed, and changes nothing. -/
lemma seenTable_skip {P : List LogEntry} {e : LogEntry}
    (h : (e.of table && !seed.shows e) = false) :
    seenTable initial L table seed (P ++ [e]) = seenTable initial L table seed P := by
  have hnil : ([e].filter (·.of table)).filter (!seed.shows ·) = [] := by
    rw [List.filter_filter]
    simpa [Bool.and_comm] using h
  rw [seenTable,seenTable,List.filter_append,List.filter_append,hnil,List.append_nil]

/-- The next change that the seed does not show fits the table as it is seen. -/
lemma seenTable_take (hlog : SourceLog tables initial L) (htable : tables table = some seed.schema)
    (hsees : seed.Sees (initial table) (L.filter (·.of table))) {P R : List LogEntry} {e : LogEntry}
    (hL : L = P ++ e :: R) (h : (e.of table && !seed.shows e) = true) :
    e.row.Fits seed.schema.identity (seenTable initial L table seed P) ∧
      seenTable initial L table seed (P ++ [e]) = e.row.apply (seenTable initial L table seed P) := by
  rw [Bool.and_eq_true] at h
  have hone : ([e].filter (·.of table)).filter (!seed.shows ·) = [e] := by simp [h]
  obtain ⟨hruns,-⟩ := History.runs_partition seed.shows hsees.closed (hlog.runs table _ htable)
  have hsplit : (L.filter (·.of table)).filter (!seed.shows ·) =
      (P.filter (·.of table)).filter (!seed.shows ·) ++ e :: (R.filter (·.of table)).filter (!seed.shows ·) := by
    rw [hL,List.filter_append,List.filter_append,List.filter_cons_of_pos h.1,
      List.filter_cons_of_pos (by simpa using h.2)]
  rw [hsplit,← List.append_assoc,History.runs_append] at hruns
  refine ⟨hruns.2.1,?_⟩
  rw [seenTable,List.filter_append,List.filter_append,hone,← List.append_assoc,History.after_append]
  rfl

/-- What is fed is how the number of rows that pass a test moves. -/
theorem card_seenTable (hlog : SourceLog tables initial L) (htable : tables table = some seed.schema)
    (hsees : seed.Sees (initial table) (L.filter (·.of table))) (hq : Row.Respects q)
    {P Q R : List LogEntry} (hL : L = P ++ Q ++ R) :
    (((seenTable initial L table seed (P ++ Q)).filter (q ·)).card : ℤ) =
      ((seenTable initial L table seed P).filter (q ·)).card+
        GroupSum.weight q (Q.flatMap (unseen table seed)) := by
  induction Q generalizing P with
  | nil => simp
  | cons e Q ih =>
    have hP : P ++ e :: Q = (P ++ [e]) ++ Q := by simp
    rw [hP,ih (by rw [hL]; simp),List.flatMap_cons,GroupSum.weight_append]
    cases h : e.of table && !seed.shows e with
    | false => rw [seenTable_skip h,unseen,h]; simp
    | true =>
      obtain ⟨hfits,hstep⟩ := seenTable_take hlog htable hsees
        (show L = P ++ e :: (Q ++ R) by rw [hL]; simp) h
      rw [hstep,hfits.card_filter,unseen,if_pos h,weight_imageDelta hq]
      ring

/-- Once all that the seed shows is processed, the table is seen as the processed changes leave it. -/
theorem seenTable_caught_up (hlog : SourceLog tables initial L) (htable : tables table = some seed.schema)
    (hsees : seed.Sees (initial table) (L.filter (·.of table))) {P R : List LogEntry} (hL : L = P ++ R)
    (h : ∀ e ∈ R, e.of table = true → seed.shows e = false) :
    seenTable initial L table seed P = tableAfter initial table P := by
  have hnone : (R.filter (·.of table)).filter seed.shows = [] := by
    rw [List.filter_eq_nil_iff]
    intro e he
    obtain ⟨he,hof⟩ := List.mem_filter.mp he
    simp [h e he hof]
  have hruns := hlog.runs table _ htable
  have hclosed := hsees.closed
  rw [hL,List.filter_append] at hruns hclosed
  obtain ⟨-,heq⟩ := History.runs_partition seed.shows (List.pairwise_append.mp hclosed).1
    (History.runs_append.mp hruns).1
  rw [seenTable,tableAfter,← heq,hL,List.filter_append,List.filter_append,hnone,List.append_nil]

/-- The mark of the circuit after `n` changes: it covers what the table was fed, and nothing that is to
come. -/
structure Marked (L : List LogEntry) (table : String) (seed : TableSeed) (mark : Option (ℕ ×ₗ ℕ))
    (n : ℕ) : Prop where
  ahead : ∀ e ∈ L.drop n, ∀ p ∈ e.env.position, Replay.Above mark p
  behind : ∀ e ∈ L.take n, unseen table seed e ≠ [] → ∀ p ∈ e.env.position, ¬Replay.Above mark p

lemma Arrangements.inputOf_append (ds ds' : List StampedDelta) (table : String) :
    Arrangements.inputOf (ds ++ ds') table =
      Arrangements.inputOf ds table ++ Arrangements.inputOf ds' table := by
  simp [Arrangements.inputOf]

/-- The circuit takes from one change what the table has not been fed. -/
lemma marked_one (hlog : SourceLog tables initial L) {stamp : LogEntry → Option StampedDelta}
    (hpos : ∀ e ∈ L, ∀ d ∈ stamp e, d.position = e.env.position) {before after : List LogEntry}
    {e : LogEntry} (hL : L = before ++ e :: after)
    (hin : Arrangements.inputOf (stamp e).toList table = unseen table seed e) {n : ℕ}
    (hbefore : before.length ≤ n) {mark : Option (ℕ ×ₗ ℕ)} (h : Marked L table seed mark n) :
    Marked L table seed (Replay.dedup StampedDelta.position mark (stamp e).toList).1
        (max n (before.length+1)) ∧
      Arrangements.inputOf (Replay.dedup StampedDelta.position mark (stamp e).toList).2 table =
        ((L.take (max n (before.length+1))).drop n).flatMap (unseen table seed) := by
  have he : e ∈ L := by simp [hL]
  obtain ⟨p,hp⟩ := Option.isSome_iff_exists.mp (hlog.stamped e he)
  have hraise : Replay.Above mark p → ∀ q, ¬Replay.Above mark q → ¬Replay.Above (some p) q :=
    fun habove q hq hpq => hq (habove.of_raise hpq)
  rcases hbefore.lt_or_eq with hlt | rfl
  · -- a change that was processed before
    have hmax : max n (before.length+1) = n := max_eq_left hlt
    have hmem : e ∈ L.take n := by
      obtain ⟨k,rfl⟩ : ∃ k, n = before.length+(k+1) := ⟨n-before.length-1,by omega⟩
      simp [hL,List.take_append]
    have hlater : ∀ d ∈ L.drop n, ∀ q ∈ d.env.position, p < q := by
      have hordered := hlog.ordered
      rw [← List.take_append_drop n L,List.pairwise_append] at hordered
      exact fun d hd => hordered.2.2 e hmem d hd p hp
    rw [hmax,List.drop_eq_nil_of_le (List.length_take_le _ _),List.flatMap_nil]
    cases hs : stamp e with
    | none => exact ⟨h,rfl⟩
    | some d =>
      rw [hs] at hin
      have hd : d.position = some p := (hpos e he d hs).trans hp
      by_cases habove : Replay.Above mark p
      · rw [Option.toList_some,Replay.dedup_take [] hd habove]
        refine ⟨⟨hlater,fun d' hd' hne q hq => hraise habove q (h.behind d' hd' hne q hq)⟩,?_⟩
        by_contra hne
        exact h.behind e hmem (fun hnil => hne (hin.trans hnil)) p hp habove
      · rw [Option.toList_some,Replay.dedup_skip [] hd habove]
        exact ⟨h,rfl⟩
  · -- the next change
    have hone : ((L.take (before.length+1)).drop before.length).flatMap (unseen table seed) =
        unseen table seed e := by simp [hL,List.take_append]
    have hdrop : L.drop (before.length+1) = after := by simp [hL,List.drop_append]
    have htake : L.take (before.length+1) = L.take before.length ++ [e] := by simp [hL,List.take_append]
    have hmem : e ∈ L.drop before.length := by simp [hL]
    have hrest : ∀ d ∈ after, d ∈ L.drop before.length := fun d hd => by simp [hL,hd]
    have hlater : ∀ d ∈ after, ∀ q ∈ d.env.position, p < q := by
      have hordered := hlog.ordered
      rw [hL,List.pairwise_append,List.pairwise_cons] at hordered
      exact fun d hd => hordered.2.1.1 d hd p hp
    rw [max_eq_right (Nat.le_succ _),hone]
    cases hs : stamp e with
    | none =>
      rw [hs] at hin
      refine ⟨⟨?_,?_⟩,hin⟩
      · rw [hdrop]
        exact fun d hd => h.ahead d (hrest d hd)
      · rw [htake,List.forall_mem_append]
        exact ⟨h.behind,by simp [← hin,Arrangements.inputOf]⟩
    | some d =>
      rw [hs] at hin
      have hd : d.position = some p := (hpos e he d hs).trans hp
      have habove : Replay.Above mark p := h.ahead e hmem p hp
      rw [Option.toList_some,Replay.dedup_take [] hd habove]
      refine ⟨⟨?_,?_⟩,hin⟩
      · rw [hdrop]
        exact hlater
      · rw [htake,List.forall_mem_append]
        refine ⟨fun d' hd' hne q hq => hraise habove q (h.behind d' hd' hne q hq),?_⟩
        intro e' he' _ q hq
        obtain rfl := List.mem_singleton.mp he'
        rw [hp] at hq
        obtain rfl := Option.some.inj hq
        exact lt_irrefl p

lemma drop_take_append (l : List LogEntry) {n m k : ℕ} (hnm : n ≤ m) (hmk : m ≤ k) :
    (l.take m).drop n ++ (l.take k).drop m = (l.take k).drop n := by
  have hsum : k-n = (m-n)+(k-m) := by omega
  rw [List.drop_take,List.drop_take,List.drop_take,hsum,List.take_add,List.drop_drop,
    Nat.add_sub_cancel' hnm]

/-- The circuit takes from a stretch of the log what the table has not been fed. -/
theorem marked_batch (hlog : SourceLog tables initial L) {stamp : LogEntry → Option StampedDelta}
    (hpos : ∀ e ∈ L, ∀ d ∈ stamp e, d.position = e.env.position) {before batch after : List LogEntry}
    (hL : L = before ++ batch ++ after)
    (hin : ∀ e ∈ batch, Arrangements.inputOf (stamp e).toList table = unseen table seed e) {n : ℕ}
    (hbefore : before.length ≤ n) {mark : Option (ℕ ×ₗ ℕ)} (h : Marked L table seed mark n) :
    Marked L table seed (Replay.dedup StampedDelta.position mark (batch.filterMap stamp)).1
        (max n (before.length+batch.length)) ∧
      Arrangements.inputOf (Replay.dedup StampedDelta.position mark (batch.filterMap stamp)).2 table =
        ((L.take (max n (before.length+batch.length))).drop n).flatMap (unseen table seed) := by
  induction batch generalizing before n mark with
  | nil =>
    have hmax : max n (before.length+([] : List LogEntry).length) = n := max_eq_left (by simpa using hbefore)
    rw [hmax,List.drop_eq_nil_of_le (List.length_take_le _ _)]
    exact ⟨h,rfl⟩
  | cons e batch ih =>
    obtain ⟨hine,hinb⟩ := List.forall_mem_cons.mp hin
    obtain ⟨hmark,hfed⟩ := marked_one hlog hpos (show L = before ++ e :: (batch ++ after) by simp [hL])
      hine hbefore h
    have hlen : (before ++ [e]).length = before.length+1 := by simp
    obtain ⟨hmark',hfed'⟩ := ih (show L = before ++ [e] ++ batch ++ after by simp [hL]) hinb
      (hlen ▸ le_max_right _ _) hmark
    have hmax : max (max n (before.length+1)) ((before ++ [e]).length+batch.length) =
        max n (before.length+(e :: batch).length) := by
      simp only [hlen,List.length_cons]
      omega
    have hcat : (e :: batch).filterMap stamp = (stamp e).toList ++ batch.filterMap stamp := by
      cases hs : stamp e <;> simp [hs]
    rw [hmax] at hmark' hfed'
    rw [hcat,Replay.dedup_append,Arrangements.inputOf_append,hfed,hfed',← List.flatMap_append]
    refine ⟨hmark',congrArg (List.flatMap (unseen table seed)) (drop_take_append L (le_max_left _ _) ?_)⟩
    simp only [List.length_cons]
    omega

/-- What the circuit is given of a change: its images, unless its gate skips it. -/
lemma stamped_eq {arr : Arrangements} {gates : AssocMap String SnapshotGate} {e : LogEntry}
    {ts : TableSchema} (hts : tables e.env.type_ = some ts) (hcarries : Carries ts e.env e.row.old e.row.new)
    {d : StampedDelta} : stampedDeltaForArrangements tables arr gates e.env = some d ↔
      (arr.countsGroupCols e.env.type_).isSome ∧ imageDelta e.row.old e.row.new ≠ [] ∧
      ((gates.get? e.env.type_).any fun gate =>
        Stamp.skips ⟨e.env.headers.txid,e.env.headers.lsn⟩ gate) = false ∧
      d = ⟨e.env.type_,imageDelta e.row.old e.row.new,e.env.headers.lsn.map lsnToU64,e.env.headers.seq⟩ := by
  unfold stampedDeltaForArrangements
  cases hcols : arr.countsGroupCols e.env.type_ with
  | none => simp
  | some cols =>
    simp only [hts,hcarries.applyEnvelope,Except.toOption,Option.bind_eq_bind,Option.bind_some,
      List.isEmpty_iff,Option.isSome_some,true_and]
    split_ifs with hnil hskip
    · simp [hnil]
    · simp [hskip]
    · simp only [Option.some.injEq,hnil,ne_eq,not_false_eq_true,true_and,
        Bool.not_eq_true _ ▸ hskip,@eq_comm _ d]

lemma stamped_none {arr : Arrangements} {gates : AssocMap String SnapshotGate} {e : LogEntry}
    (hts : tables e.env.type_ = none) : stampedDeltaForArrangements tables arr gates e.env = none := by
  unfold stampedDeltaForArrangements
  cases arr.countsGroupCols e.env.type_ <;> simp [hts]

lemma stamped_position (hlog : SourceLog tables initial L) {arr : Arrangements}
    {gates : AssocMap String SnapshotGate} {e : LogEntry} (he : e ∈ L) {d : StampedDelta}
    (hd : stampedDeltaForArrangements tables arr gates e.env = some d) :
    d.position = e.env.position := by
  cases hts : tables e.env.type_ with
  | none => rw [stamped_none hts] at hd; cases hd
  | some ts =>
    obtain ⟨-,-,-,rfl⟩ := (stamped_eq hts (hlog.carries e he ts hts)).mp hd
    rw [StampedDelta.position,Envelope.position]
    cases e.env.headers.lsn <;> cases e.env.headers.seq <;> rfl

/-- A gate that is not misled skips what its snapshot shows. -/
lemma skips_iff_shows {e : LogEntry} (hword : e.env.headers.txid = some (low32 e.xid).repr)
    (hmisread : ¬seed.snapshot.Misread e.xid) :
    Stamp.skips ⟨e.env.headers.txid,e.env.headers.lsn⟩ seed.gate = seed.shows e := by
  rw [hword,TableSeed.gate,PgSnapshot.skips_eq,Bool.eq_iff_iff,TableSeed.shows,decide_eq_true_iff]
  exact (PgSnapshot.not_misread_iff _ _ _).mpr hmisread

/-- The circuit is given of a change what the seed does not show of it. -/
lemma inputOf_stamped (hlog : SourceLog tables initial L) {s : CircuitServing}
    (hseed : s.seeds.get? table = some seed) (htable : tables table = some seed.schema)
    (hcounts : (s.arr.counts.get? table).isSome) {e : LogEntry} (he : e ∈ L)
    (hmisread : e.of table = true → ¬seed.snapshot.Misread e.xid) :
    Arrangements.inputOf (stampedDeltaForArrangements tables s.arr s.arrGates e.env).toList table =
      unseen table seed e := by
  cases hof : e.of table with
  | false =>
    have hne : e.env.type_ ≠ table := by simpa [LogEntry.of] using hof
    rw [unseen,hof]
    cases hd : stampedDeltaForArrangements tables s.arr s.arrGates e.env with
    | none => rfl
    | some d =>
      cases hts : tables e.env.type_ with
      | none => rw [stamped_none hts] at hd; cases hd
      | some ts =>
        obtain ⟨-,-,-,rfl⟩ := (stamped_eq hts (hlog.carries e he ts hts)).mp hd
        simp [Arrangements.inputOf,hne]
  | true =>
    obtain rfl : e.env.type_ = table := by simpa [LogEntry.of] using hof
    have hcarries := hlog.carries e he _ htable
    have hgate : ((s.arrGates.get? e.env.type_).any fun gate =>
        Stamp.skips ⟨e.env.headers.txid,e.env.headers.lsn⟩ gate) = seed.shows e := by
      rw [arrGates,AssocMap.get?_mapValues,hseed]
      exact skips_iff_shows (hlog.words e he) (hmisread hof)
    have hcols : (s.arr.countsGroupCols e.env.type_).isSome := by
      simpa [Arrangements.countsGroupCols] using hcounts
    rw [unseen,hof,Bool.true_and]
    cases hd : stampedDeltaForArrangements tables s.arr s.arrGates e.env with
    | some d =>
      obtain ⟨-,-,hskip,rfl⟩ := (stamped_eq htable hcarries).mp hd
      rw [hgate] at hskip
      simp [Arrangements.inputOf,hskip]
    | none =>
      cases hshows : seed.shows e with
      | true => rfl
      | false =>
        by_contra hne
        have hsome := (stamped_eq htable hcarries).mpr
          ⟨hcols,fun hnil => hne (by rw [hnil]; rfl),hgate.trans hshows,rfl⟩
        rw [hd] at hsome
        cases hsome

/-- The aggregates of one table in the state of a run. -/
structure Inv (parseF64 : String → Option OrderedFloat) (tables : String → Option TableSchema)
    (initial : String → Finset Row) (L : List LogEntry) (table : String) (s : CircuitServing) : Prop where
  sees : ∀ seed, s.seeds.get? table = some seed → tables table = some seed.schema ∧
    seed.Sees (initial table) (L.filter (·.of table))
  unseeded : s.seeds.get? table = none → s.arr.counts.get? table = none
  /-- What a test weighs over the pipeline's input it weighs over the table as it is seen. -/
  input : ∀ seed, s.seeds.get? table = some seed → ∃ p, s.arr.counts.get? table = some p ∧
    p.groupCols = seed.groupCols ∧ p.seeded = true ∧ ∀ q, Row.Respects q →
      GroupSum.weight (fun r => q (project r seed.groupCols)) p.input =
        ((seenTable initial L table seed (L.take s.next)).filter fun r => q (project r seed.groupCols)).card
  marked : ∀ seed, s.seeds.get? table = some seed → Marked L table seed s.arr.highwater s.next
  values : ∀ sid a, s.aggs.get? sid = some a → a.table = table →
    ∃ seed, s.seeds.get? table = some seed ∧
      planCircuitAgg parseF64 seed.schema a.whereJson seed.groupCols = some a.agg.constraints ∧
      a.agg.value = ((seenTable initial L table seed (L.take s.next)).filter fun r =>
        a.agg.constraints.groupMatches (project r seed.groupCols)).card
  paths : ∀ sid a, s.aggs.get? sid = some a → a.agg.streamPath = "shape/" ++ sid
  published : ∀ sid a, s.aggs.get? sid = some a →
    ∃ txid lsn, (s.streams a.agg.streamPath).getLast? = some (a.agg.envelope a.table txid lsn)

lemma project_groupRow (seed : TableSeed) (r : Row) :
    project (groupRow seed.schema seed.groupCols r) seed.groupCols = project r seed.groupCols := by
  refine congrArg Row.mk (List.map_congr_left fun i hi => ?_)
  simp [Row.cell,groupRow,List.getD_eq_getElem?_getD,seed.inRange i hi,hi]

/-- The seed counts the rows of the snapshot. -/
lemma weight_backfill (hnodup : seed.rows.Nodup) (hq : Row.Respects q) :
    GroupSum.weight (fun r => q (project r seed.groupCols)) seed.backfillGroupCounts =
      (seed.rows.toFinset.filter fun r => q (project r seed.groupCols)).card := by
  have hones : ∀ (f : Row → Bool) (rows : List Row),
      GroupSum.weight f (rows.map (·,1)) = ((rows.filter f).length : ℤ) := by
    intro f rows
    induction rows with
    | nil => rfl
    | cons r rows ih =>
      rw [List.map_cons,GroupSum.weight_cons,ih]
      cases h : f r <;> simp [h,add_comm]
  rw [TableSeed.backfillGroupCounts,GroupSum.weight_groups (hq.project seed.groupCols)]
  simp only [Function.comp_def,project_groupRow]
  rw [hones,← List.toFinset_filter,List.toFinset_card_of_nodup (hnodup.filter _)]

lemma inv_start : Inv parseF64 tables initial L table start where
  sees := nofun
  unseeded _ := rfl
  input := nofun
  marked := nofun
  values := nofun
  paths := nofun
  published := nofun

lemma inv_boot {s : CircuitServing} {seeds : AssocMap String TableSeed} {next : ℕ}
    (hseeds : ∀ seed, seeds.get? table = some seed → tables table = some seed.schema ∧
      seed.Sees (initial table) (L.filter (·.of table)))
    (hallowed : Allowed L table s (.boot seeds next)) :
    Inv parseF64 tables initial L table (s.boot seeds next) where
  sees := hseeds
  unseeded h := by
    simp only [boot] at h ⊢
    rw [AssocMap.get?_mapValues,h,Option.map_none]
  input seed hseed := by
    obtain ⟨-,hsees⟩ := hseeds seed hseed
    have hnone : ((L.take next).filter (·.of table)).filter (!seed.shows ·) = [] := by
      rw [List.filter_eq_nil_iff]
      intro e he
      obtain ⟨he,hof⟩ := List.mem_filter.mp he
      simp [hallowed seed hseed e he hof]
    refine ⟨seed.pipeline,?_,rfl,rfl,fun q hq => ?_⟩
    · simp only [boot] at hseed ⊢
      rw [AssocMap.get?_mapValues,hseed,Option.map_some]
    · simp only [boot,seenTable,hnone,List.append_nil,← hsees.rows]
      exact weight_backfill hsees.nodup hq
  marked seed hseed :=
    { ahead := fun _ _ _ _ => trivial
      behind := by
        intro e he hne
        refine absurd ?_ hne
        rw [unseen]
        cases hof : e.of table with
        | false => rfl
        | true => rw [hallowed seed hseed e he hof]; rfl }
  values := nofun
  paths := nofun
  published := nofun

/-- An append of one envelope, or of several copies of it, makes it the last one. -/
lemma getLast?_flush {streams : String → List Envelope} {staged : Staged} {path : String}
    {env : Envelope} (hsome : ∃ c ∈ staged, c.1 = path) (hall : ∀ c ∈ staged, c.1 = path → c.2 = [env]) :
    (flush streams staged path).getLast? = some env := by
  have hmem : ∀ e, e ∈ (staged.filter (·.1 == path)).flatMap (·.2) ↔ e = env := by
    intro e
    simp only [List.mem_flatMap,List.mem_filter,beq_iff_eq]
    constructor
    · rintro ⟨c,⟨hc,hpath⟩,he⟩
      rw [hall c hc hpath] at he
      exact List.mem_singleton.mp he
    · rintro rfl
      obtain ⟨c,hc,hpath⟩ := hsome
      exact ⟨c,⟨hc,hpath⟩,by simp [hall c hc hpath]⟩
  have hne : (staged.filter (·.1 == path)).flatMap (·.2) ≠ [] :=
    List.ne_nil_of_mem ((hmem env).mpr rfl)
  rw [flush,List.getLast?_append,List.getLast?_eq_some_getLast hne,
    (hmem _).mp (List.getLast_mem hne)]
  rfl

lemma flush_other {streams : String → List Envelope} {staged : Staged} {path : String}
    (h : ∀ c ∈ staged, c.1 ≠ path) : flush streams staged path = streams path := by
  have hnil : staged.filter (·.1 == path) = [] := by
    rw [List.filter_eq_nil_iff]
    simpa using h
  rw [flush,hnil]
  exact List.append_nil _

lemma shapePath_inj {sid sid' : String} (h : "shape/" ++ sid = "shape/" ++ sid') : sid = sid' := by
  simpa using h

lemma inv_create {s : CircuitServing} {sid t : String} {whereJson : Option PredicateJson}
    {ts : TableSchema} {cols : List ℕ} {cs : Constraints} {agg : CircuitAgg}
    (h : Inv parseF64 tables initial L table s) (hts : tables t = some ts)
    (hcols : s.arr.countsGroupCols t = some cols)
    (hplan : planCircuitAgg parseF64 ts whereJson cols = some cs)
    (hagg : createCircuitAgg s.arr t ("shape/" ++ sid) cs = some agg) :
    Inv parseF64 tables initial L table
      { s with
        aggs := s.aggs.insert sid ⟨t,whereJson,agg⟩
        streams := flush s.streams [(agg.streamPath,[agg.envelope t none none])] } := by
  obtain ⟨groups,-,rfl⟩ := Option.map_eq_some_iff.mp hagg
  refine { h with values := ?_, paths := ?_, published := ?_ }
  · intro sid' a ha htable
    rw [AssocMap.get?_insert_eq] at ha
    split_ifs at ha with heq
    · obtain rfl := Option.some.inj ha
      obtain rfl : t = table := htable
      obtain ⟨p,hp,hpcols⟩ := Option.map_eq_some_iff.mp hcols
      obtain ⟨seed,hseed⟩ : ∃ seed, s.seeds.get? t = some seed := by
        refine Option.ne_none_iff_exists'.mp fun hnone => ?_
        rw [h.unseeded hnone] at hp
        cases hp
      obtain ⟨p',hp',hcols',hseeded,hinput⟩ := h.input seed hseed
      rw [hp] at hp'
      obtain rfl := Option.some.inj hp'
      have hschema := (h.sees seed hseed).1
      rw [hts] at hschema
      obtain rfl := Option.some.inj hschema
      rw [createCircuitAgg_eq hp hseeded] at hagg
      refine ⟨seed,hseed,?_,?_⟩
      · rw [← hcols',hpcols]
        exact hplan
      · rw [← hinput cs.groupMatches (respects_groupMatches cs),← hcols']
        exact (congrArg CircuitAgg.value (Option.some.inj hagg)).symm
    · exact h.values sid' a ha htable
  · intro sid' a ha
    rw [AssocMap.get?_insert_eq] at ha
    split_ifs at ha with heq
    · obtain rfl := Option.some.inj ha
      rw [heq]
    · exact h.paths sid' a ha
  · intro sid' a ha
    rw [AssocMap.get?_insert_eq] at ha
    split_ifs at ha with heq
    · obtain rfl := Option.some.inj ha
      exact ⟨none,none,getLast?_flush ⟨_,List.mem_singleton_self _,rfl⟩ (by simp)⟩
    · obtain ⟨txid,lsn,hlast⟩ := h.published sid' a ha
      refine ⟨txid,lsn,(congrArg List.getLast? (flush_other ?_)).trans hlast⟩
      intro c hc
      obtain rfl := List.mem_singleton.mp hc
      rw [h.paths sid' a ha]
      exact fun hp => heq (shapePath_inj hp)

lemma inv_remove {s : CircuitServing} {sid : String} (h : Inv parseF64 tables initial L table s) :
    Inv parseF64 tables initial L table { s with aggs := s.aggs.erase sid } := by
  have hget : ∀ sid' a, (s.aggs.erase sid).get? sid' = some a → s.aggs.get? sid' = some a := by
    intro sid' a ha
    rw [AssocMap.get?_erase] at ha
    split_ifs at ha
    exact ha
  exact { h with
    values := fun sid' a ha => h.values sid' a (hget sid' a ha)
    paths := fun sid' a ha => h.paths sid' a (hget sid' a ha)
    published := fun sid' a ha => h.published sid' a (hget sid' a ha) }

lemma inv_deliver (hlog : SourceLog tables initial L) {s : CircuitServing}
    (h : Inv parseF64 tables initial L table s) {before batch after : List LogEntry}
    {txid lsn : Option String} (hL : L = before ++ batch ++ after) (hnext : before.length ≤ s.next)
    (hallowed : Allowed L table s (.deliver batch)) :
    Inv parseF64 tables initial L table
      (s.deliver tables batch txid lsn (max s.next (before.length+batch.length))) := by
  set n := max s.next (before.length+batch.length) with hn
  set stamp := fun e : LogEntry => stampedDeltaForArrangements tables s.arr s.arrGates e.env with hstamp
  have hbatch : ∀ seed, s.seeds.get? table = some seed →
      Marked L table seed
        (Replay.dedup StampedDelta.position s.arr.highwater (batch.filterMap stamp)).1 n ∧
      Arrangements.inputOf (Replay.dedup StampedDelta.position s.arr.highwater (batch.filterMap stamp)).2
        table = ((L.take n).drop s.next).flatMap (unseen table seed) := by
    intro seed hseed
    obtain ⟨p,hp,-⟩ := h.input seed hseed
    refine marked_batch hlog (fun e he d hd => stamped_position hlog he hd) hL (fun e he => ?_) hnext
      (h.marked seed hseed)
    exact inputOf_stamped hlog hseed (h.sees seed hseed).1 (by rw [hp]; rfl) (by simp [hL,he])
      (hallowed seed hseed e he)
  have hseen : ∀ seed, s.seeds.get? table = some seed → ∀ q, Row.Respects q →
      (((seenTable initial L table seed (L.take n)).filter (q ·)).card : ℤ) =
        ((seenTable initial L table seed (L.take s.next)).filter (q ·)).card+
          GroupSum.weight q (((L.take n).drop s.next).flatMap (unseen table seed)) := by
    intro seed hseed q hq
    obtain ⟨htable,hsees⟩ := h.sees seed hseed
    have hsplit : L.take n = L.take s.next ++ (L.take n).drop s.next := by
      conv_lhs => rw [← List.take_append_drop s.next (L.take n),List.take_take,
        min_eq_left (le_max_left _ _)]
    rw [hsplit]
    refine (card_seenTable hlog htable hsees hq (R := L.drop n) ?_).trans ?_
    · rw [← hsplit,List.take_append_drop]
    · rw [← hsplit]
  have hsame : ∀ sid a, (s.deliver tables batch txid lsn n).aggs.get? sid = some a →
      ∃ a', s.aggs.get? sid = some a' ∧ a = { a' with agg := { a'.agg with
        value := a'.agg.value+a'.gain (s.arr.applyBatch (batch.filterMap stamp)).2 } } := by
    intro sid a ha
    rw [deliver,get?_applyCountDeltas] at ha
    obtain ⟨a',ha',rfl⟩ := Option.map_eq_some_iff.mp ha
    exact ⟨a',ha',rfl⟩
  refine ⟨h.sees,?_,?_,fun seed hseed => (hbatch seed hseed).1,?_,?_,?_⟩
  · intro hnone
    exact get?_applyBatch.trans (by rw [h.unseeded hnone]; rfl)
  · intro seed hseed
    obtain ⟨p,hp,hcols,hseeded,hinput⟩ := h.input seed hseed
    refine ⟨_,get?_applyBatch.trans (congrArg (Option.map _) hp),hcols,hseeded,fun q hq => ?_⟩
    rw [GroupSum.weight_append,hinput q hq,(hbatch seed hseed).2]
    exact (hseen seed hseed _ (hq.project seed.groupCols)).symm
  · intro sid a ha htable
    obtain ⟨a',ha',rfl⟩ := hsame sid a ha
    obtain ⟨seed,hseed,hplan,hvalue⟩ := h.values sid a' ha' htable
    obtain ⟨p,hp,hcols,-,-⟩ := h.input seed hseed
    obtain rfl : a'.table = table := htable
    refine ⟨seed,hseed,hplan,?_⟩
    have hcard := hseen seed hseed _
      ((respects_groupMatches a'.agg.constraints).project seed.groupCols)
    rw [gain_applyBatch hp,hcols,(hbatch seed hseed).2,hvalue]
    exact hcard.symm
  · intro sid a ha
    obtain ⟨a',ha',rfl⟩ := hsame sid a ha
    exact h.paths sid a' ha'
  · intro sid a ha
    obtain ⟨a',ha',heq⟩ := hsame sid a ha
    have hpath : a.agg.streamPath = "shape/" ++ sid := by
      rw [heq]
      exact h.paths sid a' ha'
    have hself : ∀ path envs,
        (path,envs) ∈ (applyCountDeltas s.aggs (s.arr.applyBatch (batch.filterMap stamp)).2 txid lsn).2 →
        path = a.agg.streamPath →
        sid ∈ changedAggs s.aggs (s.arr.applyBatch (batch.filterMap stamp)).2 ∧
          envs = [a.agg.envelope a.table txid lsn] := by
      intro path envs hmem hp
      obtain ⟨sid',b,hb,hchanged,hbpath,rfl⟩ := mem_staged.mp hmem
      obtain ⟨b',hb',rfl⟩ := hsame sid' b hb
      have hsid : sid' = sid := by
        rw [hp,hpath,h.paths sid' b' hb'] at hbpath
        exact shapePath_inj hbpath
      subst hsid
      rw [ha'] at hb'
      obtain rfl := Option.some.inj hb'
      exact ⟨hchanged,by rw [heq]⟩
    by_cases hchanged : sid ∈ changedAggs s.aggs (s.arr.applyBatch (batch.filterMap stamp)).2
    · refine ⟨txid,lsn,getLast?_flush ⟨(a.agg.streamPath,[a.agg.envelope a.table txid lsn]),?_,rfl⟩ ?_⟩
      · exact mem_staged.mpr ⟨sid,a,ha,hchanged,rfl,rfl⟩
      · exact fun c hc hp => (hself c.1 c.2 hc hp).2
    · have hgain : a'.gain (s.arr.applyBatch (batch.filterMap stamp)).2 = 0 := by
        have hnone : (s.arr.applyBatch (batch.filterMap stamp)).2.filter a'.counts = [] := by
          rw [List.filter_eq_nil_iff]
          exact fun d hd hc => hchanged (mem_changedAggs.mpr ⟨d,hd,a',ha',hc⟩)
        rw [Served.gain,hnone]
        rfl
      obtain rfl : a = a' := by
        rw [heq,hgain,add_zero]
      obtain ⟨txid',lsn',hlast⟩ := h.published sid a ha'
      refine ⟨txid',lsn',(congrArg List.getLast? (flush_other ?_)).trans hlast⟩
      exact fun c hc hp => hchanged (hself c.1 c.2 hc hp).1

theorem inv_step (hlog : SourceLog tables initial L) {s t : CircuitServing} {a : Act}
    (h : Inv parseF64 tables initial L table s) (hallowed : Allowed L table s a)
    (hst : Step parseF64 tables initial L s a t) : Inv parseF64 tables initial L table t := by
  cases hst with
  | boot hnext hseeds => exact inv_boot (hseeds table) hallowed
  | create hfresh hts hcols hplan hagg => exact inv_create h hts hcols hplan hagg
  | remove => exact inv_remove h
  | deliver hL hnext hrun => exact inv_deliver hlog h hL hnext hallowed

theorem inv_of_run (hlog : SourceLog tables initial L) {s : CircuitServing}
    (hrun : Relation.ReflTransGen (GuardedSteps parseF64 tables initial L table) start s) :
    Inv parseF64 tables initial L table s := by
  induction hrun with
  | refl => exact inv_start
  | tail _ hst ih =>
    obtain ⟨a,hallowed,hst⟩ := hst
    exact inv_step hlog ih hallowed hst

end

open Classical in
/-- The number of rows that the filter of an aggregate selects in SQL. -/
noncomputable def sqlCount (parseF64 : String → Option OrderedFloat) (ts : TableSchema)
    (collector : SubqueryCollector) (S : Assignment) (where_ : Option PredicateJson) (t : Finset Row) : ℕ :=
  (t.filter (Selects parseF64 ts collector S where_)).card

open Classical in
lemma sqlCount_eq_zero {parseF64 : String → Option OrderedFloat} {ts : TableSchema}
    {collector : SubqueryCollector} {S : Assignment} {where_ : Option PredicateJson} {t : Finset Row} :
    sqlCount parseF64 ts collector S where_ t = 0 ↔
      ∀ r ∈ t, ¬Selects parseF64 ts collector S where_ r := by
  rw [sqlCount,Finset.card_eq_zero,Finset.filter_eq_empty_iff]

open Classical in
/-- The groups count what SQL counts unless a row is matched through a NULL. -/
lemma card_matches_iff {parseF64 : String → Option OrderedFloat} {ts : TableSchema}
    {where_ : Option PredicateJson} {cols : List ℕ} {cs : Constraints}
    (hplan : planCircuitAgg parseF64 ts where_ cols = some cs) (collector : SubqueryCollector)
    (S : Assignment) (t : Finset Row) :
    (t.filter fun r => cs.groupMatches (project r cols)).card = sqlCount parseF64 ts collector S where_ t ↔
      ∀ r ∈ t, ¬ThroughNull parseF64 ts collector S where_ r := by
  have hdisjoint : Disjoint (t.filter (Selects parseF64 ts collector S where_))
      (t.filter (ThroughNull parseF64 ts collector S where_)) := by
    rw [Finset.disjoint_filter]
    exact fun r _ hsel hnull => ThroughNull.not_selects hplan hnull hsel
  have hunion : (t.filter fun r => cs.groupMatches (project r cols)) =
      t.filter (Selects parseF64 ts collector S where_) ∪
        t.filter (ThroughNull parseF64 ts collector S where_) := by
    rw [← Finset.filter_or]
    exact Finset.filter_congr fun r _ => groupMatches_iff hplan r
  rw [hunion,Finset.card_union_of_disjoint hdisjoint,sqlCount,Nat.add_eq_left,Finset.card_eq_zero,
    Finset.filter_eq_empty_iff]

/-- A plan counts a row exactly when SQL selects it, if and only if the row is not matched through a NULL.
In every run whose gates are not misled, what an aggregate has published last is the SQL count over the table
as it is seen exactly when no row of it is matched through a NULL; and once what the seed shows is processed,
that table is the one after the processed changes. -/
theorem circuit_counts {parseF64 : String → Option OrderedFloat}
    {tables : String → Option TableSchema} {initial : String → Finset Row} {L : List LogEntry}
    (hlog : SourceLog tables initial L) (table : String) :
    (∀ ts where_ cols cs, planCircuitAgg parseF64 ts where_ cols = some cs → ∀ collector S row,
      (cs.groupMatches (project row cols) = true ↔ Selects parseF64 ts collector S where_ row) ↔
        ¬ThroughNull parseF64 ts collector S where_ row) ∧
    ∀ s, Relation.ReflTransGen (GuardedSteps parseF64 tables initial L table) start s →
      ∀ sid a, s.aggs.get? sid = some a → a.table = table →
        ∃ seed txid lsn, ∃ n : ℕ, s.seeds.get? table = some seed ∧
          (s.streams a.agg.streamPath).getLast? = some (aggEnvelope table (.int n) n txid lsn) ∧
          (∀ collector S,
            n = sqlCount parseF64 seed.schema collector S a.whereJson
              (seenTable initial L table seed (L.take s.next)) ↔
            ∀ r ∈ seenTable initial L table seed (L.take s.next),
              ¬ThroughNull parseF64 seed.schema collector S a.whereJson r) ∧
          ((∀ e ∈ L.drop s.next, e.of table = true → seed.shows e = false) →
            seenTable initial L table seed (L.take s.next) = tableAfter initial table (L.take s.next)) := by
  refine ⟨fun ts where_ cols cs hplan collector S row => ?_,fun s hrun sid a ha htable => ?_⟩
  · rw [groupMatches_iff hplan row]
    constructor
    · exact fun h hnull => ThroughNull.not_selects hplan hnull (h.mp (.inr hnull))
    · exact fun h => ⟨fun hor => hor.resolve_right h,.inl⟩
  · have hinv := inv_of_run hlog hrun
    obtain ⟨seed,hseed,hplan,hvalue⟩ := hinv.values sid a ha htable
    obtain ⟨txid,lsn,hlast⟩ := hinv.published sid a ha
    obtain ⟨hschema,hsees⟩ := hinv.sees seed hseed
    refine ⟨seed,txid,lsn,_,hseed,?_,fun collector S => card_matches_iff hplan collector S _,fun h => ?_⟩
    · rw [hlast,CircuitAgg.envelope,htable,hvalue]
    · exact seenTable_caught_up hlog hschema hsees (List.take_append_drop s.next L).symm h

section
variable {tables : String → Option TableSchema}

def sampleTables (table : String) : Option TableSchema :=
  if table = "issues" then some .sample else none

def sampleInitial (row : Row) (table : String) : Finset Row := if table = "issues" then {row} else ∅

/-- The counts by level of a table of one row. -/
def sampleSeed (row : Row) : TableSeed := ⟨.sample,[1],by decide,[row],.sample,"0/100"⟩

def levelEquals (j : Json) (h : j.finite = true) : PredicateJson := .leaf "level" .eq ⟨j,h⟩

def sampleBooted (row : Row) : CircuitServing := start.boot (.insert .empty "issues" (sampleSeed row)) 0

/-- The first aggregate, with its first value. -/
def sampleCreated (row : Row) (where_ : PredicateJson) (cs : Constraints) (value : ℤ) : CircuitServing :=
  let agg : CircuitAgg := ⟨"shape/s1",cs,value⟩
  { sampleBooted row with
    aggs := .insert .empty "s1" ⟨"issues",some where_,agg⟩
    streams := flush (fun _ => []) [("shape/s1",[agg.envelope "issues" none none])] }

lemma sample_boot {row : Row} {L : List LogEntry}
    (hunseen : ∀ e ∈ L, (sampleSeed row).shows e = false) :
    GuardedSteps (fun _ => none) sampleTables (sampleInitial row) L "issues" start (sampleBooted row) := by
  refine ⟨.boot _ 0,by simp [Allowed],.boot le_rfl fun table seed hseed => ?_⟩
  rw [AssocMap.get?_insert_eq] at hseed
  split_ifs at hseed with heq
  · subst heq
    obtain rfl := Option.some.inj hseed
    have hnone : (L.filter (·.of "issues")).filter (sampleSeed row).shows = [] := by
      rw [List.filter_eq_nil_iff]
      intro e he
      simp [hunseen e (List.mem_filter.mp he).1]
    refine ⟨rfl,List.nodup_singleton _,?_,?_⟩
    · rw [hnone]
      rfl
    · refine List.pairwise_of_forall_mem_list fun d _ e he hshown => ?_
      rw [hunseen e (List.mem_filter.mp he).1] at hshown
      cases hshown
  · cases hseed

lemma sample_create {row : Row} {L : List LogEntry} {where_ : PredicateJson} {cs : Constraints}
    {value : ℤ} (hplan : planCircuitAgg (fun _ => none) .sample (some where_) [1] = some cs)
    (hagg : createCircuitAgg (sampleBooted row).arr "issues" "shape/s1" cs =
      some ⟨"shape/s1",cs,value⟩) :
    GuardedSteps (fun _ => none) sampleTables (sampleInitial row) L "issues" (sampleBooted row)
      (sampleCreated row where_ cs value) :=
  ⟨.create "s1" "issues" (some where_),trivial,
    @Step.create _ _ _ _ _ "s1" "issues" (some where_) .sample [1] cs _ rfl rfl rfl hplan hagg⟩

/-- `level = NULL` selects no row in SQL, and the row without a level is counted. -/
theorem sample_null_counted : ¬∀ s,
    Relation.ReflTransGen (GuardedSteps (fun _ => none) sampleTables (sampleInitial ⟨[.int 1,.null]⟩) []
      "issues") start s →
    ∀ sid a, s.aggs.get? sid = some a → ∀ collector S, ∃ txid lsn, ∃ n : ℕ,
      (s.streams a.agg.streamPath).getLast? = some (aggEnvelope a.table (.int n) n txid lsn) ∧
      n = sqlCount (fun _ => none) .sample collector S a.whereJson
        (tableAfter (sampleInitial ⟨[.int 1,.null]⟩) a.table []) := by
  intro h
  have hcreate := @sample_create ⟨[.int 1,.null]⟩ [] (levelEquals .null rfl) [some [.null]] 1 rfl rfl
  have hrun := (Relation.ReflTransGen.single (@sample_boot ⟨[.int 1,.null]⟩ [] nofun)).tail hcreate
  obtain ⟨txid,lsn,n,hlast,hn⟩ := h _ hrun "s1" _ rfl (fun _ _ _ => .error "") fun _ => ∅
  have hlast : some (aggEnvelope "issues" (.int 1) 1 none none) =
      some (aggEnvelope "issues" (.int n) n txid lsn) := hlast
  have hone : (1 : ℤ) = n := by
    have hvalue := congrArg Envelope.value (Option.some.inj hlast)
    simp only [aggEnvelope,Option.some.injEq,Json.object.injEq,List.cons.injEq,Prod.mk.injEq,
      Json.int.injEq,true_and] at hvalue
    exact hvalue.1
  have hzero : n = 0 := by
    rw [hn,sqlCount_eq_zero]
    intro r hr
    obtain rfl : r = ⟨[.int 1,.null]⟩ := Finset.mem_singleton.mp hr
    have heq : Equates (fun _ => none) .sample (levelEquals .null rfl) 1 .null :=
      ⟨"level",⟨.null,rfl⟩,rfl,rfl,rfl⟩
    exact fun hsel => (heq.selects.mp hsel).1 rfl
  omega

/-- An insert of a row of level five, after the snapshot. -/
def sampleEntry : LogEntry where
  env := ⟨"issues","2",some (sampleObject 2 5),none,⟨"insert",some (low32 200).repr,some "0/200",some 0,none⟩⟩
  xid := 200
  row := ⟨none,some (sampleRow 2 5)⟩

lemma sample_source : SourceLog sampleTables (sampleInitial (sampleRow 1 3)) [sampleEntry] where
  stamped e he := by
    obtain rfl := List.mem_singleton.mp he
    rfl
  ordered := List.pairwise_singleton _ _
  words e he := by
    obtain rfl := List.mem_singleton.mp he
    rfl
  carries e he ts hts := by
    obtain rfl := List.mem_singleton.mp he
    obtain rfl : TableSchema.sample = ts := Option.some.inj hts
    refine ⟨fun n hn => ?_,nofun,nofun,fun _ => rfl⟩
    obtain rfl := Option.some.inj hn
    exact ⟨by decide,_,rfl,rfl⟩
  runs table ts hts := by
    by_cases heq : table = "issues"
    · subst heq
      obtain rfl : TableSchema.sample = ts := Option.some.inj hts
      decide +kernel
    · simp [sampleTables,heq] at hts

/-- A change that comes after the first value moves it to the SQL count. -/
theorem sample_circuit_counts : ∃ (s : CircuitServing) (a : Served) (txid lsn : Option String) (n : ℕ),
    s.aggs.get? "s1" = some a ∧
    (s.streams a.agg.streamPath).getLast? = some (aggEnvelope "issues" (.int n) n txid lsn) ∧
    ∀ collector S, n = sqlCount (fun _ => none) .sample collector S a.whereJson
      (tableAfter (sampleInitial (sampleRow 1 3)) "issues" [sampleEntry]) := by
  have hunseen : ∀ e ∈ [sampleEntry], (sampleSeed (sampleRow 1 3)).shows e = false := by
    intro e he
    obtain rfl := List.mem_singleton.mp he
    decide
  have hcreate := @sample_create (sampleRow 1 3) [sampleEntry] (levelEquals (.int 5) rfl)
    [some [.int 5]] 0 rfl rfl
  have hdeliver := @Step.deliver (fun _ => none) sampleTables (sampleInitial (sampleRow 1 3)) [sampleEntry]
    (sampleCreated (sampleRow 1 3) (levelEquals (.int 5) rfl) [some [.int 5]] 0) [] [sampleEntry] []
    (some (low32 200).repr) (some "0/200") rfl le_rfl (by
      intro e he
      obtain rfl := List.mem_singleton.mp he
      rfl)
  have hallowed : Allowed [sampleEntry] "issues"
      (sampleCreated (sampleRow 1 3) (levelEquals (.int 5) rfl) [some [.int 5]] 0)
      (.deliver [sampleEntry]) := by
    intro seed hseed e he _
    obtain rfl := List.mem_singleton.mp he
    obtain rfl : sampleSeed (sampleRow 1 3) = seed := Option.some.inj hseed
    exact PgSnapshot.not_misread_of_epoch (by decide) (by decide)
  have hrun := ((Relation.ReflTransGen.single (sample_boot hunseen)).tail hcreate).tail ⟨_,hallowed,hdeliver⟩
  obtain ⟨seed,txid,lsn,n,hseed,hlast,hcount,hseen⟩ :=
    (circuit_counts sample_source "issues").2 _ hrun "s1" _ rfl rfl
  obtain rfl : sampleSeed (sampleRow 1 3) = seed := Option.some.inj hseed
  refine ⟨_,_,txid,lsn,n,rfl,hlast,fun collector S => ?_⟩
  have hnull := (hcount collector S).mpr fun r _ => by
    rintro ⟨⟨c,hc,hlists⟩,-⟩
    obtain rfl : c = levelEquals (.int 5) rfl := List.mem_singleton.mp hc
    exact Json.noConfusion hlists.1
  rw [hseen nofun] at hnull
  exact hnull

end
end CircuitServing
end ElectricCircuits
