import ElectricCircuits.Subquery.Walk

/-! The rows of a view as displays: each row has its versions in the log of the table, the inner sets say what is
shown of one, and query-backs read versions late. Next to the work that there is a display may have work that asks
for every row and is never begun: with it nothing need be known of what the reads find. -/
namespace ElectricCircuits

namespace Site
variable {β : Type} (S : Site β)

/-- The versions of the row under a key, and what the inner sets show of one. The work that is none asks for every
row. -/
def source (k : String) : LateReads.Source NodeSets Row β (Option Work) where
  image := version S.ts S.base k S.log
  view := S.view
  asks x r := x.all (·.asks S.pred S.equals r)

/-- The changes that need no decision any more: those processed, and those that the backfill saw. -/
def decided (processed : ℕ) : List RowEvent :=
  S.log.take processed ++ (S.log.drop processed).filter S.gate.sees

/-- The version of a row that a read saw, and whether it returned the row. -/
def readVersion (k : String) (r : Option (List Row × SnapshotGate)) : Option (ℕ × Bool) :=
  r.map fun r => ((writes S.ts k (S.log.filter r.2.sees)).length,(candidateAt S.ts (r.1.map (·,true)) k).isSome)

/-- The reads that are begun, by the version of the row under a key. -/
def reads (k : String) (walks : List FlipWalk) : List (Option Work × Option (ℕ × Bool)) :=
  (walks.filterMap FlipWalk.reading).map fun r => (some (.requery r.1),S.readVersion k r.2)

/-- The work that is not begun. -/
def openWork (work : List Work) (walks : List FlipWalk) : List Work :=
  work ++ walks.flatMap fun v => v.pending.map .requery

/-- The display of one row, with the work that is never begun or without. -/
def display (k : String) (slack : List (Option Work)) (w : World β) (recent : Option ℕ) :
    LateReads.Display NodeSets β (Option Work) where
  env := w.sets
  committed := (writes S.ts k (S.log.take w.committed)).length
  decided := (writes S.ts k (S.decided w.processed)).length
  shown := w.shown k
  work := (openWork w.work w.walks).map some ++ slack
  reads := S.reads k w.walks
  recent := recent

/-- A recorded decision is that of the commit which wrote the version. -/
def Records (k : String) (stamp : Option CommitStamp) (n : Option ℕ) : Prop :=
  match stamp,n with
  | none,none => True
  | some stamp,some n => ∃ pre e post, S.log = pre ++ e :: post ∧ e.write S.ts k ≠ none ∧ e.stamp = stamp ∧
      n = (writes S.ts k pre).length+1
  | _,_ => False

/-- What holds of a walk: its work asks for what its reads ask for, and a read that is made returned the rows of
its snapshot. -/
structure Fine (v : FlipWalk) : Prop where
  asks : ∀ q ∈ v.queries, ∀ r, q.selects S.equals r = true → v.work.asks S.pred S.equals r = true
  read : ∀ rows gate, v.read = some (some (rows,gate)) →
    S.Closed gate.sees ∧ ∀ q ∈ v.queries.head?, S.Reads q gate.sees rows

/-- What holds at any time of a run. -/
structure Good (slack : List (Option Work)) (w : World β) : Prop where
  le : w.processed ≤ w.committed
  closed : S.Closed S.gate.sees
  future : ∀ e ∈ S.log.drop w.committed, S.gate.sees e = false
  walks : ∀ v ∈ w.walks, S.Fine v
  keys : ∀ k, ∃ n, S.Records k (w.recent k) n ∧ (S.display k slack w n).Sound (S.source k)

variable {S} {w : World β} {k : String} {slack : List (Option Work)}

section
variable {vs vs' : List FlipWalk} {x : Work} {q : Requery} {qs : List Requery}
  {r : Option (List Row × SnapshotGate)}

lemma reads_begun : S.reads k (vs ++ ⟨x,q :: qs,some r⟩ :: vs') =
    S.reads k vs ++ (some (.requery q),S.readVersion k r) :: S.reads k vs' := by
  simp [reads,FlipWalk.reading]

lemma reads_idle : S.reads k (vs ++ ⟨x,qs,none⟩ :: vs') = S.reads k vs ++ S.reads k vs' := by
  simp [reads,List.filterMap_cons,FlipWalk.reading]

lemma reads_drop : S.reads k (vs ++ vs') = S.reads k vs ++ S.reads k vs' := by
  simp [reads]

end

section
variable {saw : RowEvent → Bool}

lemma Closed.at_key (h : S.Closed saw) (k : String) {es : List RowEvent} (hes : es.Sublist S.log) :
    es.Pairwise fun d e => d.write S.ts k ≠ none → e.write S.ts k ≠ none → saw e = true → saw d = true :=
  (h.sublist hes).imp fun h => h k

/-- What a gate tells is as good as what its snapshot saw. -/
lemma Tells.filter {gate : SnapshotGate} (h : S.Tells gate saw) : S.log.filter gate.sees = S.log.filter saw :=
  List.filter_congr h

lemma Tells.closed {gate : SnapshotGate} (h : S.Tells gate saw) (hclosed : S.Closed saw) : S.Closed gate.sees := by
  refine hclosed.imp_of_mem fun hd he hpair k hdw hew hse => ?_
  rw [h _ hd]
  exact hpair k hdw hew (h _ he ▸ hse)

lemma Tells.snapshot {gate : SnapshotGate} (h : S.Tells gate saw) {processed committed : ℕ}
    (hsnap : S.Snapshot processed committed saw) : S.Snapshot processed committed gate.sees where
  past e he := (h e (List.mem_of_mem_take he)).trans (hsnap.past e he)
  seed e he hs := (h e he).trans (hsnap.seed e he hs)
  future e he := (h e (List.mem_of_mem_drop he)).trans (hsnap.future e he)
  closed := h.closed hsnap.closed

lemma Tells.reads {gate : SnapshotGate} (h : S.Tells gate saw) {q : Requery} {rows : List Row}
    (hreads : S.Reads q saw rows) : S.Reads q gate.sees rows := by
  obtain ⟨hrow,hfound,hnodup⟩ := hreads
  rw [← h.filter] at hrow hfound
  exact ⟨hrow,hfound,hnodup⟩

end

/-- The change that is processed next: one that writes the row and that the backfill did not see is the next
version to decide, and any other decides nothing. -/
lemma decided_succ (hclosed : S.Closed S.gate.sees) {p : ℕ} {e : RowEvent} (he : S.log[p]? = some e) :
    (S.gate.sees e = true ∨ e.write S.ts k = none →
      writes S.ts k (S.decided (p+1)) = writes S.ts k (S.decided p)) ∧
    ∀ r, S.gate.sees e = false → e.write S.ts k = some r →
      writes S.ts k (S.decided p) = writes S.ts k (S.log.take p) ∧
      writes S.ts k (S.decided (p+1)) = writes S.ts k (S.log.take p) ++ [r] := by
  have hdrop : S.log.drop p = e :: S.log.drop (p+1) := by
    obtain ⟨hlt,rfl⟩ := List.getElem?_eq_some_iff.mp he
    exact List.drop_eq_getElem_cons hlt
  have htake : S.log.take (p+1) = S.log.take p ++ [e] := by
    rw [List.take_add_one,he]
    rfl
  refine ⟨fun h => ?_,fun r hs hw => ?_⟩
  · rw [decided,decided,htake,hdrop]
    rcases h with hs | hw
    · rw [List.filter_cons_of_pos hs,List.append_assoc]
      rfl
    · cases hs : S.gate.sees e <;> simp [hs,writes_cons,hw]
  · -- what comes later in the log and was seen does not write the row
    have hnil : writes S.ts k ((S.log.drop (p+1)).filter S.gate.sees) = [] := by
      have hafter := (List.pairwise_cons.mp (hdrop ▸ hclosed.at_key k (List.drop_sublist p S.log))).1
      rw [writes,List.filterMap_eq_nil_iff]
      intro d hd
      obtain ⟨hd,hsd⟩ := List.mem_filter.mp hd
      by_contra hne
      have hse := hafter d hd (by simp [hw]) hne hsd
      rw [hs] at hse
      cases hse
    constructor
    · rw [decided,hdrop,List.filter_cons_of_neg (by simp [hs]),writes_append,hnil,List.append_nil]
    · rw [decided,htake,writes_append,hnil,writes_append,writes_cons,hw,writes_nil,List.append_nil]
      rfl

section
variable (S) in
/-- The row under a key is one of the table's, under that key. -/
lemma Valid.rowAt_isRow (hv : S.Valid) {es : List RowEvent} (hes : es.Sublist S.log) {r : Row}
    (hr : rowAt S.ts S.base k es = some r) : S.ts.IsRow r ∧ S.ts.name r = k := by
  rw [rowAt] at hr
  cases hlast : (writes S.ts k es).getLast? with
  | none =>
    rw [hlast] at hr
    exact hv.base k r hr
  | some w =>
    rw [hlast] at hr
    obtain rfl : w = some r := hr
    obtain ⟨e,he,hw⟩ := List.mem_filterMap.mp (List.mem_of_getLast? hlast)
    obtain ⟨pre,post,hlog⟩ := List.append_of_mem (hes.subset he)
    rcases e.write_cases S.ts k with ⟨hw',-⟩ | ⟨n,hn,hnk,hw'⟩ | ⟨o,-,-,-,hw'⟩
    · cases hw.symm.trans hw'
    · obtain rfl : r = n := Option.some.inj (Option.some.inj (hw.symm.trans hw'))
      exact ⟨(hv.log pre e post hlog).new_row r hn,hnk⟩
    · cases Option.some.inj (hw.symm.trans hw')

variable {q : Requery} {saw : RowEvent → Bool} {rows : List Row}

/-- The rows that a read returned have keys of their own. -/
lemma Reads.distinct (hv : S.Valid) (h : S.Reads q saw rows) : Distinct S.ts (rows.map (·,true)) :=
  .of_nodup (fun r hr => (hv.rowAt_isRow S List.filter_sublist (h.row r hr)).1) h.nodup

/-- The candidate that a read brings for a key is its row as the snapshot sees it. -/
lemma Reads.candidate (hv : S.Valid) (h : S.Reads q saw rows) {k : String} {c : Row × Bool}
    (hc : candidateAt S.ts (rows.map (·,true)) k = some c) :
    ∃ r, c = (r,true) ∧ rowAt S.ts S.base k (S.log.filter saw) = some r := by
  obtain ⟨hmem,hkey⟩ := (candidateAt_eq_some (h.distinct hv)).mp hc
  obtain ⟨r,hr,rfl⟩ := List.mem_map.mp hmem
  have hrow := h.row r hr
  rw [TableSchema.keyString_eq (hv.rowAt_isRow S List.filter_sublist hrow).1] at hkey
  obtain rfl := Except.ok.inj hkey
  exact ⟨r,rfl,hrow⟩

/-- A read brings the row that it asks for. -/
lemma Reads.candidate_isSome (hv : S.Valid) (h : S.Reads q saw rows) {k : String} {r : Row}
    (hat : rowAt S.ts S.base k (S.log.filter saw) = some r) (hq : q.selects S.equals r = true) :
    (candidateAt S.ts (rows.map (·,true)) k).isSome = true := by
  obtain ⟨hr,rfl⟩ := hv.rowAt_isRow S List.filter_sublist hat
  have hcandidate := (candidateAt_eq_some (h.distinct hv)).mpr
    ⟨List.mem_map.mpr ⟨r,h.found r hat hq,rfl⟩,TableSchema.keyString_eq hr⟩
  rw [hcandidate]
  rfl

end

lemma source_image : (S.source k).image = version S.ts S.base k S.log := rfl

lemma mem_openWork {x : Work} {work : List Work} {walks : List FlipWalk} :
    x ∈ openWork work walks ↔ x ∈ work ∨ ∃ v ∈ walks, ∃ q ∈ v.pending, x = .requery q := by
  simp [openWork,eq_comm]

/-- A row that the sets show otherwise is asked for by one of their flips. -/
lemma turned (hfinds : S.pred.Finds S.equals) {sets sets' : NodeSets} {work : List Work} (h : Flips sets sets' work)
    (r : Row) (hne : (S.source k).view sets r ≠ (S.source k).view sets' r) :
    ∃ x ∈ work, (S.source k).asks (some x) r = true := by
  have hmatch : S.pred.matchesCtx r sets.eval ≠ S.pred.matchesCtx r sets'.eval := by
    intro heq
    exact hne (by simp only [source,view,heq])
  obtain ⟨l,hl,hmoved⟩ := CompiledPredicate.exists_moved_leaf hmatch
  obtain ⟨sig,v,hflipped,hback⟩ := CompiledPredicate.readsBack_of_moved hfinds hl hmoved
  obtain ⟨x,hx,hmem⟩ := h sig v hflipped
  exact ⟨_,hmem,(Work.asks_flip sig x).trans (hback x hx)⟩

section
variable {saw : RowEvent → Bool}

/-- What is decided is seen by a read, as it is made. -/
lemma Snapshot.decided_le (h : S.Snapshot w.processed w.committed saw) (k : String) :
    (writes S.ts k (S.decided w.processed)).length ≤ (writes S.ts k (S.log.filter saw)).length := by
  have hall : (S.decided w.processed).filter saw = S.decided w.processed := by
    rw [List.filter_eq_self]
    intro e he
    rcases List.mem_append.mp he with he | he
    · exact h.past e he
    · obtain ⟨he,hs⟩ := List.mem_filter.mp he
      exact h.seed e (List.mem_of_mem_drop he) hs
  have hsub : (S.decided w.processed).Sublist S.log := by
    conv_rhs => rw [← List.take_append_drop w.processed S.log]
    exact List.filter_sublist.append_left _
  rw [← hall]
  exact ((hsub.filter _).filterMap _).length_le

/-- A read sees nothing that is not committed. -/
lemma le_committed (h : ∀ e ∈ S.log.drop w.committed, saw e = false) (k : String) :
    (writes S.ts k (S.log.filter saw)).length ≤ (writes S.ts k (S.log.take w.committed)).length := by
  have hnil : (S.log.drop w.committed).filter saw = [] := by
    rw [List.filter_eq_nil_iff]
    intro e he
    simp [h e he]
  have hsplit : S.log.filter saw = (S.log.take w.committed).filter saw := by
    conv_lhs => rw [← List.take_append_drop w.committed S.log,List.filter_append,hnil,List.append_nil]
  rw [hsplit]
  exact (List.filter_sublist.filterMap _).length_le

end

/-- What a set of nodes shows of the version before a change of the row, and of the one after. -/
lemma shows_take (p : ℕ) (sets : NodeSets) : (S.source k).shows sets (writes S.ts k (S.log.take p)).length =
    (rowAt S.ts S.base k (S.log.take p)).bind ((S.source k).view sets) := by
  have hprefix : writes S.ts k (S.log.take p) <+: writes S.ts k S.log := by
    refine ⟨writes S.ts k (S.log.drop p),?_⟩
    rw [← writes_append,List.take_append_drop]
  rw [LateReads.Source.shows,source_image,version_take hprefix]

lemma shows_write {p : ℕ} {e : RowEvent} {r : Option Row} (he : S.log[p]? = some e) (hw : e.write S.ts k = some r)
    (sets : NodeSets) : (S.source k).shows sets ((writes S.ts k (S.log.take p)).length+1) =
      r.bind ((S.source k).view sets) := by
  obtain ⟨hlt,rfl⟩ := List.getElem?_eq_some_iff.mp he
  have hlog : S.log = S.log.take p ++ S.log[p] :: S.log.drop (p+1) := by
    rw [← List.drop_eq_getElem_cons hlt,List.take_append_drop]
  rw [LateReads.Source.shows,source_image,version_write hlog hw]

/-- A change between rows that the view never shows leaves nothing to decide. -/
lemma blank (hv : S.Valid) {p : ℕ} {e : RowEvent} {r : Option Row} (he : S.log[p]? = some e)
    (hw : e.write S.ts k = some r)
    (himage : ∀ r, e.change.old = some r ∨ e.change.new = some r → ∀ sets, S.view sets r = none) :
    (S.source k).Blank (writes S.ts k (S.log.take p)).length ((writes S.ts k (S.log.take p)).length+1) := by
  obtain ⟨hlt,he'⟩ := List.getElem?_eq_some_iff.mp he
  have hfits := hv.log (S.log.take p) e (S.log.drop (p+1))
    (by rw [← he',← List.drop_eq_getElem_cons hlt,List.take_append_drop])
  have hnext : ∀ sets, (S.source k).shows sets ((writes S.ts k (S.log.take p)).length+1) = none := by
    intro sets
    rw [shows_write he hw]
    cases r with
    | none => rfl
    | some r =>
      rcases e.write_cases S.ts k with ⟨hw',-⟩ | ⟨n,hn,-,hw'⟩ | ⟨o,-,-,-,hw'⟩
      · cases hw.symm.trans hw'
      · obtain rfl : r = n := Option.some.inj (Option.some.inj (hw.symm.trans hw'))
        exact himage r (.inr hn) sets
      · cases Option.some.inj (hw.symm.trans hw')
  refine LateReads.Source.Blank.succ ?_ hnext
  intro i hi hi' sets
  obtain rfl := Nat.le_antisymm hi hi'
  rw [shows_take]
  by_cases hold : ∃ o ∈ e.change.old, S.ts.name o = k
  · obtain ⟨o,ho,rfl⟩ := hold
    rw [hfits.held o ho]
    exact himage o (.inl ho) sets
  · rcases e.write_cases S.ts k with ⟨hw',-⟩ | ⟨n,hn,rfl,-⟩ | ⟨o,ho,hok,-⟩
    · cases hw.symm.trans hw'
    · have hfree := hfits.free n hn fun o ho heq => hold ⟨o,ho,heq⟩
      rw [hfree]
      rfl
    · exact absurd ⟨o,ho,hok⟩ hold

end Site
end ElectricCircuits
