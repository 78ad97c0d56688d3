import ElectricCircuits.Sequencer.Intake
import Mathlib.Algebra.GroupWithZero.Nat

/-! The sequencer over a segmented log and across restarts. A node is the loop with the last checkpoint
that it published; `done` counts the changes applied, of which a restart keeps those that the
checkpoint's high-water mark covers. -/
namespace ElectricCircuits
open Replay

/-- The changes of the log from a position on. -/
def logFrom (segs : List (List Envelope)) (pos : LogPosition) : List Envelope :=
  ((segs.getD pos.segment []).drop pos.offset ++ (segs.drop (pos.segment+1)).flatten).filter
    (!isControl ·)

/-- The segments hold a log, and a rotation pointer names the segment that comes next. -/
structure Segmented (L : List Envelope) (segs : List (List Envelope)) : Prop where
  log : segs.flatten.filter (!isControl ·) = L
  pointer : ∀ k, ∀ e ∈ segs.getD k [], ∀ n ∈ rotationTarget e, n = k+1

structure Node where
  loop : LoopState
  ckpt : LogPosition × Option (ℕ ×ₗ ℕ)
  done : List (ℕ ×ₗ ℕ)

namespace Node

def start : Node := ⟨.restart (.startOf 0) none,(.startOf 0,none),[]⟩

/-- The checkpoint that the loop publishes. -/
def checkpoint (s : LoopState) : LogPosition × Option (ℕ ×ₗ ℕ) :=
  (published s.pos s.heldFrom,s.highwater)

/-- The process comes back from a checkpoint. -/
def reborn (s : Node) (ckpt : LogPosition × Option (ℕ ×ₗ ℕ)) : Node :=
  ⟨.restart ckpt.1 ckpt.2,ckpt,s.done.filter (¬Above ckpt.2 ·)⟩

/-- The node after a read, with its changes counted. -/
def after (s : Node) (r : LoopState × List Flush) : Node :=
  ⟨r.1,s.ckpt,s.done ++ (r.2.flatMap (·.fresh)).filterMap Envelope.position⟩

/-- The loop stops at a failure with a last checkpoint, and the process comes back from it. -/
def failed (s : Node) (r : LoopState × List Flush) : Node := (s.after r).reborn (checkpoint r.1)

end Node

/-- A read of up to `n` envelopes of the current segment. -/
def readAt (segs : List (List Envelope)) (pos : LogPosition) (n : ℕ) (closed : Bool) : ReadResult :=
  let page := ((segs.getD pos.segment []).drop pos.offset).take n
  ⟨page,some (pos.offset+page.length),closed⟩

/-- What can happen to a node. A segment is only closed once it has a successor. -/
inductive Step (segs : List (List Envelope)) : Node → Node → Prop where
  | read (s : Node) {n : ℕ} {closed : Bool} (hn : 0 < n)
    (hclosed : closed = true → s.loop.pos.segment+1 < segs.length) :
    Step segs s (s.after (readPage s.loop (readAt segs s.loop.pos n closed) none))
  | checkpoint (s : Node) : Step segs s { s with ckpt := Node.checkpoint s.loop }
  | crash (s : Node) : Step segs s (s.reborn s.ckpt)
  | fail (s : Node) {n : ℕ} {closed : Bool} (m : ℕ) (hn : 0 < n)
    (hclosed : closed = true → s.loop.pos.segment+1 < segs.length) :
    Step segs s (s.failed (readPage s.loop (readAt segs s.loop.pos n closed) (some m)))

def Reachable (segs : List (List Envelope)) (s : Node) : Prop :=
  Relation.ReflTransGen (Step segs) Node.start s

/-- A read that nothing interrupts, of a log that nothing is appended to: a segment is closed if it has a
successor. -/
inductive Reads (segs : List (List Envelope)) : Node → Node → Prop where
  | read (s : Node) {n : ℕ} {closed : Bool} (hn : 0 < n)
    (hclosed : closed = true ↔ s.loop.pos.segment+1 < segs.length) :
    Reads segs s (s.after (readPage s.loop (readAt segs s.loop.pos n closed) none))

lemma Reads.step {segs : List (List Envelope)} {s t : Node} (h : Reads segs s t) : Step segs s t := by
  cases h with
  | read hn hclosed => exact .read s hn hclosed.mp

/-- The envelopes that a position has ahead of it, with one for each segment still to begin. -/
def unread (segs : List (List Envelope)) (pos : LogPosition) : ℕ :=
  ((segs.getD pos.segment []).drop pos.offset).length +
    ((segs.drop (pos.segment+1)).map fun seg => seg.length+1).sum

section
variable {L : List Envelope} {segs : List (List Envelope)} {Z : Set (ℕ ×ₗ ℕ)}

lemma flatten_drop {k : ℕ} (hk : k < segs.length) :
    segs.getD k [] ++ (segs.drop (k+1)).flatten = (segs.drop k).flatten := by
  rw [List.drop_eq_getElem_cons hk,List.flatten_cons]
  simp [List.getD,hk]

lemma take_append_drop_length {α : Type*} (n : ℕ) (xs : List α) :
    xs.take n ++ xs.drop (xs.take n).length = xs := by
  rcases le_total n xs.length with h | h
  · rw [List.length_take,min_eq_left h,List.take_append_drop]
  · rw [List.take_of_length_le h,List.drop_length,List.append_nil]

lemma logFrom_suffix (h : Segmented L segs) (pos : LogPosition) (hp : pos.segment < segs.length) :
    ∃ A, L = A ++ logFrom segs pos := by
  refine ⟨((segs.take pos.segment).flatten ++
    (segs.getD pos.segment []).take pos.offset).filter (!isControl ·),?_⟩
  rw [logFrom,← List.filter_append,← h.log]
  congr 1
  rw [List.append_assoc,← List.append_assoc _ _ (segs.drop _).flatten,List.take_append_drop,
    flatten_drop hp,← List.flatten_append,List.take_append_drop]

/-- A read takes its page off the front of the log. -/
lemma logFrom_readAt (segs : List (List Envelope)) (pos : LogPosition) (n : ℕ) (closed : Bool) :
    logFrom segs pos = (readAt segs pos n closed).envelopes.filter (!isControl ·) ++
      logFrom segs { pos with offset := pos.offset+(readAt segs pos n closed).envelopes.length } := by
  rw [logFrom,logFrom,← List.filter_append,← List.append_assoc]
  congr 2
  have h := (take_append_drop_length n ((segs.getD pos.segment []).drop pos.offset)).symm
  rwa [List.drop_drop] at h

/-- Behind the end of a segment the log goes on with the next one. -/
lemma logFrom_cross {pos : LogPosition} (hp : pos.segment+1 < segs.length)
    (hend : (segs.getD pos.segment []).drop pos.offset = []) :
    logFrom segs (.startOf (pos.segment+1)) = logFrom segs pos := by
  rw [logFrom,logFrom,hend,LogPosition.startOf,List.nil_append]
  exact congrArg _ (flatten_drop hp)

lemma readAt_empty {pos : LogPosition} {n : ℕ} {closed : Bool} (hn : 0 < n)
    (h : (readAt segs pos n closed).envelopes.length = 0) :
    (segs.getD pos.segment []).drop pos.offset = [] := by
  have hnil := List.eq_nil_of_length_eq_zero h
  simpa [readAt,hn.ne'] using hnil

lemma rotationTargetIn_readAt (h : Segmented L segs) {pos : LogPosition} {n m : ℕ} {closed : Bool}
    (hm : m ∈ rotationTargetIn (readAt segs pos n closed).envelopes) : m = pos.segment+1 := by
  obtain ⟨e,he,ht⟩ := List.exists_of_findSome?_eq_some hm
  have hmem : e ∈ segs.getD pos.segment [] :=
    List.mem_of_mem_drop (List.mem_of_mem_take (List.mem_reverse.mp he))
  exact h.pointer pos.segment e hmem m ht

/-- What holds of a node at any time: all that the mark does not cover is ahead of the loop, of the
position that it would publish, and of the checkpoint behind the checkpoint's own mark. -/
structure Inv (L : List Envelope) (Z : Set (ℕ ×ₗ ℕ)) (segs : List (List Envelope)) (s : Node) :
    Prop where
  inRange : s.loop.pos.segment < segs.length
  pinRange : ∀ p ∈ s.loop.heldFrom, p.segment < segs.length
  ckptRange : s.ckpt.1.segment < segs.length
  rotate : ∀ n ∈ s.loop.rotateTo, n = s.loop.pos.segment+1
  holding : ∃ A, L = A ++ logFrom segs s.loop.pos ∧ Holding L A s.loop.held
  free : s.loop.heldFrom = none → s.loop.held = []
  ahead : Ahead Envelope.position Z s.loop.highwater (s.loop.held ++ logFrom segs s.loop.pos)
  pinned : Ahead Envelope.position Z s.loop.highwater
    (logFrom segs (published s.loop.pos s.loop.heldFrom))
  ckptAhead : Ahead Envelope.position Z s.ckpt.2 (logFrom segs s.ckpt.1)
  ckptBelow : ∀ z, Above s.loop.highwater z → Above s.ckpt.2 z
  taken : Taken Z s.loop.highwater s.done
  fromLog : ∀ p ∈ s.done, ∃ e ∈ L, e.position = some p

lemma Inv.published_range {s : Node} (h : Inv L Z segs s) :
    (published s.loop.pos s.loop.heldFrom).segment < segs.length := by
  cases hp : s.loop.heldFrom with
  | none => exact h.inRange
  | some p => exact h.pinRange p hp

lemma inv_start (hS : Source L Z) (hseg : Segmented L segs) (hne : segs ≠ []) :
    Inv L Z segs .start := by
  have hlog : logFrom segs (.startOf 0) = L := by
    rw [← hseg.log,logFrom,LogPosition.startOf,List.drop_zero]
    exact congrArg _ (flatten_drop (List.length_pos_of_ne_nil hne))
  have hbegin := hS.begins
  rw [← hlog] at hbegin
  exact {
    inRange := List.length_pos_of_ne_nil hne
    pinRange := by simp [Node.start,LoopState.restart]
    ckptRange := List.length_pos_of_ne_nil hne
    rotate := by simp [Node.start,LoopState.restart]
    holding := ⟨[],hlog.symm,Holding.nil L []⟩
    free := fun _ => rfl
    ahead := hbegin
    pinned := hbegin
    ckptAhead := hbegin
    ckptBelow := fun _ h => h
    taken := Taken.nil Z
    fromLog := by simp [Node.start] }

/-- A process that comes back from a checkpoint which nothing uncovered lies before starts in order. -/
lemma inv_reborn (hseg : Segmented L segs) {s : Node} {ckpt : LogPosition × Option (ℕ ×ₗ ℕ)}
    {mark : Option (ℕ ×ₗ ℕ)} (hrange : ckpt.1.segment < segs.length)
    (ha : Ahead Envelope.position Z ckpt.2 (logFrom segs ckpt.1)) (ht : Taken Z mark s.done)
    (hm : ∀ z, Above mark z → Above ckpt.2 z) (hlog : ∀ p ∈ s.done, ∃ e ∈ L, e.position = some p) :
    Inv L Z segs (s.reborn ckpt) := by
  obtain ⟨A,hA⟩ := logFrom_suffix hseg ckpt.1 hrange
  exact {
    inRange := hrange
    pinRange := by simp [Node.reborn,LoopState.restart]
    ckptRange := hrange
    rotate := by simp [Node.reborn,LoopState.restart]
    holding := ⟨A,hA,Holding.nil L A⟩
    free := fun _ => rfl
    ahead := ha
    pinned := ha
    ckptAhead := ha
    ckptBelow := fun _ h => h
    taken := ht.lower hm
    fromLog := fun p hp => hlog p (List.mem_filter.mp hp).1 }

/-- Processing runs of the log: what is behind them stays ahead, and they are counted in order. -/
lemma process_spec {s : Node} (hS : Source L Z) (h : Inv L Z segs s) {X Y : List Envelope}
    (hX : X ⊆ L) (ha : Ahead Envelope.position Z s.loop.highwater (X ++ Y)) :
    Ahead Envelope.position Z (dedup Envelope.position s.loop.highwater X).1 Y ∧
    Taken Z (dedup Envelope.position s.loop.highwater X).1
      (s.done ++ (dedup Envelope.position s.loop.highwater X).2.filterMap Envelope.position) ∧
    ∀ p ∈ s.done ++ (dedup Envelope.position s.loop.highwater X).2.filterMap Envelope.position,
      ∃ e ∈ L, e.position = some p := by
  obtain ⟨ha',ht'⟩ := dedup_spec (fun e he => hS.stamped e (hX he)) ha h.taken
  refine ⟨ha',ht',fun p hp => ?_⟩
  rcases List.mem_append.mp hp with hp | hp
  · exact h.fromLog p hp
  · obtain ⟨e,he,hpe⟩ := List.mem_filterMap.mp hp
    exact ⟨e,hX (dedup_subset X he),hpe⟩

/-- A failure goes back to a position that everything uncovered is still ahead of. -/
lemma inv_fail (hS : Source L Z) (hR : Resends L Z) (hseg : Segmented L segs) {s : Node} (h : Inv L Z segs s)
    {n : ℕ} {closed : Bool} (m : ℕ) :
    Inv L Z segs (s.failed (readPage s.loop (readAt segs s.loop.pos n closed) (some m))) := by
  obtain ⟨A,hL,hH⟩ := h.holding
  have ha := h.ahead
  rw [logFrom_readAt segs s.loop.pos n closed] at hL ha
  set page := (readAt segs s.loop.pos n closed).envelopes.filter (!isControl ·) with hpage
  have hai := ahead_intake hS hL hH (hR.returns hS hL hH) ha
  have hsub := runs_subset hL hH
  set runs := (intake s.loop.held page).runs with hruns
  rw [← List.take_append_drop m runs,List.flatten_append] at hai hsub
  rw [List.append_assoc] at hai
  obtain ⟨-,ht,hlog⟩ := process_spec hS h (fun e he => hsub (List.mem_append_left _ he)) hai
  -- both ways of going back lead to the position published before the read
  have hback : Node.checkpoint (readPage s.loop (readAt segs s.loop.pos n closed) (some m)).1 =
      (published s.loop.pos s.loop.heldFrom,
        (dedup Envelope.position s.loop.highwater (runs.take m).flatten).1) := by
    cases hf : s.loop.heldFrom with
    | some p => simp [Node.checkpoint,readPage,hf,published,processRuns_mark,hruns,hpage]
    | none =>
      simp only [Node.checkpoint,readPage,hf,published,processRuns_mark,readAt,Option.getD_none,
        Prod.mk.injEq]
      exact ⟨by split_ifs <;> rfl,rfl⟩
  have hfresh : (readPage s.loop (readAt segs s.loop.pos n closed) (some m)).2.flatMap (·.fresh) =
      (dedup Envelope.position s.loop.highwater (runs.take m).flatten).2 := by
    rw [← processRuns_fresh]
    cases hf : s.loop.heldFrom <;> simp [readPage,hf,hruns,hpage]
  rw [Node.failed,hback]
  refine inv_reborn hseg h.published_range (h.pinned.mono fun z hz => dedup_mark_mono hz) ?_
    (fun z hz => hz) ?_
  · rw [Node.after,hfresh]
    exact ht
  · rw [Node.after,hfresh]
    exact hlog

/-- A read goes on in its segment, or finds it closed and exhausted and begins the next one. -/
lemma crossSegment_cases (hseg : Segmented L segs) {pos next : LogPosition} {rotateTo : Option ℕ}
    (hrot : ∀ m ∈ rotateTo, m = pos.segment+1) {n : ℕ} (closed : Bool) (hn : 0 < n)
    (hnext : next = { pos with offset := pos.offset+(readAt segs pos n closed).envelopes.length }) :
    let rr := readAt segs pos n closed
    let rot := (rotationTargetIn rr.envelopes).or rotateTo
    (∀ m ∈ rot, m = pos.segment+1) ∧
    (¬(closed = true ∧ (segs.getD pos.segment []).drop pos.offset = []) ∧
        crossSegment pos next rr rot = (next,rot) ∨
      closed = true ∧ (segs.getD pos.segment []).drop pos.offset = [] ∧
        crossSegment pos next rr rot = (.startOf (pos.segment+1),none)) := by
  have hrotate : ∀ m ∈ (rotationTargetIn (readAt segs pos n closed).envelopes).or rotateTo,
      m = pos.segment+1 := by
    intro m hm
    rcases Option.or_eq_some_iff.mp hm with hm | ⟨-,hm⟩
    · exact rotationTargetIn_readAt hseg hm
    · exact hrot m hm
  refine ⟨hrotate,?_⟩
  subst hnext
  rw [crossSegment]
  dsimp only
  split_ifs with hc
  · right
    have hempty : (readAt segs pos n closed).envelopes.length = 0 := by
      rcases hc.2 with hlen | hlen
      · exact hlen
      · have hoff : (readAt segs pos n closed).nextOffset =
            some (pos.offset+(readAt segs pos n closed).envelopes.length) := rfl
        rw [hoff] at hlen
        simpa using hlen
    have hsucc : ((rotationTargetIn (readAt segs pos n closed).envelopes).or rotateTo).getD
        (pos.segment+1) = pos.segment+1 := by
      cases ho : (rotationTargetIn (readAt segs pos n closed).envelopes).or rotateTo with
      | none => rfl
      | some m => exact hrotate m ho
    exact ⟨hc.1,readAt_empty hn hempty,by rw [hsucc]⟩
  · refine .inl ⟨fun hend => hc ⟨hend.1,.inl ?_⟩,rfl⟩
    rw [readAt,hend.2,List.take_nil,List.length_nil]

/-- Leaving a segment, or not, leads to the same rest of the log. -/
lemma crossSegment_spec (hseg : Segmented L segs) {s : Node} (h : Inv L Z segs s) {n : ℕ}
    {closed : Bool} (hn : 0 < n) (hclosed : closed = true → s.loop.pos.segment+1 < segs.length)
    {next : LogPosition} (hnext : next = { s.loop.pos with
      offset := s.loop.pos.offset+(readAt segs s.loop.pos n closed).envelopes.length }) :
    let r := crossSegment s.loop.pos next (readAt segs s.loop.pos n closed)
      ((rotationTargetIn (readAt segs s.loop.pos n closed).envelopes).or s.loop.rotateTo)
    r.1.segment < segs.length ∧ logFrom segs r.1 = logFrom segs next ∧
      ∀ m ∈ r.2, m = r.1.segment+1 := by
  obtain ⟨hrotate,⟨-,hcross⟩ | ⟨hc,hend,hcross⟩⟩ := crossSegment_cases hseg h.rotate closed hn hnext
  · rw [hcross,hnext]
    exact ⟨h.inRange,rfl,hrotate⟩
  · have hempty : (readAt segs s.loop.pos n closed).envelopes.length = 0 := by
      rw [readAt,hend,List.take_nil,List.length_nil]
    rw [hcross,hnext,hempty]
    exact ⟨hclosed hc,logFrom_cross (hclosed hc) hend,by simp⟩

lemma intake_nil (page : List Envelope) : (intake [] page).continuation = false := by
  simp only [intake,reattach,List.getLast?_nil]
  split <;> simp

/-- One read keeps everything uncovered ahead. -/
lemma inv_read (hS : Source L Z) (hR : Resends L Z) (hseg : Segmented L segs) {s : Node} (h : Inv L Z segs s)
    {n : ℕ} {closed : Bool} (hn : 0 < n)
    (hclosed : closed = true → s.loop.pos.segment+1 < segs.length) :
    Inv L Z segs (s.after (readPage s.loop (readAt segs s.loop.pos n closed) none)) := by
  obtain ⟨hrange,hlog,hrotate⟩ := crossSegment_spec hseg h hn hclosed rfl
  obtain ⟨A,hL,hH⟩ := h.holding
  have ha := h.ahead
  have hpin := h.pinned
  have hrest := logFrom_readAt segs s.loop.pos n closed
  rw [hrest] at hL ha
  set rr := readAt segs s.loop.pos n closed with hrr
  set page := rr.envelopes.filter (!isControl ·) with hpage
  set next : LogPosition := { s.loop.pos with offset := s.loop.pos.offset+rr.envelopes.length }
  set runs := (intake s.loop.held page).runs with hruns
  set held := (intake s.loop.held page).held with hheld
  set r := crossSegment s.loop.pos next rr ((rotationTargetIn rr.envelopes).or s.loop.rotateTo)
  set mark := (dedup Envelope.position s.loop.highwater runs.flatten).1 with hmark
  have hmono : ∀ z, Above mark z → Above s.loop.highwater z := fun z hz => dedup_mark_mono hz
  obtain ⟨ha',ht,hfrom⟩ := process_spec hS h (runs_subset hL hH) (ahead_intake hS hL hH (hR.returns hS hL hH) ha)
  -- the position published after the read
  set heldFrom := if held = [] then none
    else if (intake s.loop.held page).continuation then s.loop.heldFrom else some s.loop.pos
    with hheldFrom
  have hpinned : Ahead Envelope.position Z mark (logFrom segs (published r.1 heldFrom)) ∧
      (∀ p ∈ heldFrom, p.segment < segs.length) ∧ (heldFrom = none → held = []) := by
    rw [hheldFrom]
    split_ifs with hnil hc
    · refine ⟨?_,by simp,fun _ => hnil⟩
      rw [published,Option.getD_none,hlog]
      rwa [← hheld,hnil,List.nil_append] at ha'
    · cases hf : s.loop.heldFrom with
      | none =>
        rw [h.free hf,intake_nil] at hc
        cases hc
      | some p =>
        rw [hf] at hpin
        exact ⟨hpin.mono hmono,fun q hq => h.pinRange q (hf.trans hq),by simp⟩
    · refine ⟨?_,by simpa using h.inRange,by simp⟩
      rw [published,Option.getD_some,hrest]
      rcases held_processed hH hnil (by simpa using hc) with hr | hsub
      · have hai := ahead_reattach hS hL hH (hR.returns hS hL hH) ha
        rw [hr] at hai
        exact hai.mono hmono
      · refine (ha.mono hmono).drop_covered fun e he p hp => ?_
        exact not_above_of_mem (hsub he) hp
  have hafter : s.after (readPage s.loop rr none) =
      ⟨⟨r.1,held,heldFrom,mark,r.2⟩,s.ckpt,s.done ++ (dedup Envelope.position s.loop.highwater
        runs.flatten).2.filterMap Envelope.position⟩ := by
    rw [← processRuns_fresh,hmark,← processRuns_mark]
    rfl
  rw [hafter]
  exact {
    inRange := hrange
    pinRange := hpinned.2.1
    ckptRange := h.ckptRange
    rotate := hrotate
    holding := by
      refine ⟨A ++ page,?_,holding_intake hS hL hH⟩
      rw [hlog,List.append_assoc]
      exact hL
    free := hpinned.2.2
    ahead := by
      rw [hlog]
      exact ha'
    pinned := hpinned.1
    ckptAhead := h.ckptAhead
    ckptBelow := fun z hz => h.ckptBelow z (hmono z hz)
    taken := ht
    fromLog := hfrom }

theorem inv_step (hS : Source L Z) (hR : Resends L Z) (hseg : Segmented L segs) {s s' : Node} (h : Inv L Z segs s)
    (hs : Step segs s s') : Inv L Z segs s' := by
  cases hs with
  | read hn hclosed => exact inv_read hS hR hseg h hn hclosed
  | checkpoint =>
    exact { h with
      ckptRange := h.published_range
      ckptAhead := h.pinned
      ckptBelow := fun _ hz => hz }
  | crash => exact inv_reborn hseg h.ckptRange h.ckptAhead h.taken h.ckptBelow h.fromLog
  | fail m hn hclosed => exact inv_fail hS hR hseg h m

theorem inv_reachable (hS : Source L Z) (hR : Resends L Z) (hseg : Segmented L segs) (hne : segs ≠ []) {s : Node}
    (hs : Reachable segs s) : Inv L Z segs s := by
  induction hs with
  | refl => exact inv_start hS hseg hne
  | tail _ hstep ih => exact inv_step hS hR hseg ih hstep

/-- A read has less ahead of it, or there was nothing left to read. -/
lemma Inv.reads (hseg : Segmented L segs) {s t : Node} (h : Inv L Z segs s) (hst : Reads segs s t) :
    logFrom segs t.loop.pos = [] ∨ unread segs t.loop.pos < unread segs s.loop.pos := by
  cases hst with
  | @read n closed hn hclosed =>
    obtain ⟨-,⟨hstay,hcross⟩ | ⟨hc,hend,hcross⟩⟩ := crossSegment_cases hseg h.rotate closed hn rfl
    · have hpos : (s.after (readPage s.loop (readAt segs s.loop.pos n closed) none)).loop.pos = { s.loop.pos with
          offset := s.loop.pos.offset+(readAt segs s.loop.pos n closed).envelopes.length } :=
        congrArg Prod.fst hcross
      rw [hpos]
      by_cases hend : (segs.getD s.loop.pos.segment []).drop s.loop.pos.offset = []
      · -- an open segment that is exhausted is the last one
        have hlast : segs.drop (s.loop.pos.segment+1) = [] :=
          List.drop_eq_nil_of_le (not_lt.mp fun hlt => hstay ⟨hclosed.mpr hlt,hend⟩)
        left
        rw [logFrom,← List.drop_drop,hend,hlast,List.drop_nil]
        rfl
      · right
        have htaken : 0 < (readAt segs s.loop.pos n closed).envelopes.length := by
          rw [readAt,List.length_take]
          exact lt_min hn (List.length_pos_of_ne_nil hend)
        have hsome := List.length_pos_of_ne_nil hend
        rw [List.length_drop] at hsome
        rw [unread,unread]
        simp only [List.length_drop]
        omega
    · right
      have hlt := hclosed.mp hc
      have hpos : (s.after (readPage s.loop (readAt segs s.loop.pos n closed) none)).loop.pos =
          .startOf (s.loop.pos.segment+1) := congrArg Prod.fst hcross
      rw [hpos,unread,unread,LogPosition.startOf,hend,List.drop_zero,List.drop_eq_getElem_cons hlt,List.map_cons,
        List.sum_cons]
      simp [List.getD,hlt]

/-- Reads go on to the end of the log, whatever the pages. -/
theorem exists_reads (hS : Source L Z) (hR : Resends L Z) (hseg : Segmented L segs) {s : Node}
    (h : Inv L Z segs s) :
    ∃ t, Relation.ReflTransGen (Reads segs) s t ∧ Inv L Z segs t ∧ logFrom segs t.loop.pos = [] := by
  induction hk : unread segs s.loop.pos using Nat.strong_induction_on generalizing s with
  | _ k ih =>
    have hread := @Reads.read segs s 1 (decide (s.loop.pos.segment+1 < segs.length)) Nat.one_pos decide_eq_true_iff
    have hinv := inv_step hS hR hseg h hread.step
    rcases h.reads hseg hread with hend | hlt
    · exact ⟨_,.single hread,hinv,hend⟩
    · obtain ⟨t,hst,ht,hend⟩ := ih _ (hk ▸ hlt) hinv rfl
      exact ⟨t,.head hread hst,ht,hend⟩

/-- At the end of the log every commit that the log has in full is applied. -/
lemma Inv.done_at_end (hS : Source L Z) (hR : Resends L Z) {s : Node} (h : Inv L Z segs s)
    (hend : logFrom segs s.loop.pos = []) : ∀ z ∈ Z, z ∈ s.done := by
  intro z hz
  obtain ⟨A,hL,hH⟩ := h.holding
  have ha := h.ahead
  rw [hend,List.append_nil] at hL ha
  subst hL
  exact h.taken.complete z hz (covered_at_end hS hR hH ha z hz)

end

/-- Whatever the pages, the interruptions and the restarts: the changes counted as applied are in log
order and each counted once; of the commits that the log has in full they are all up to the
high-water mark, and every other change of such a commit is still ahead of the checkpoint; at the
end of the log they are all of them; and reads that nothing interrupts get there. -/
theorem applied_exactly_once (cs : Commits) (ds : List Delivery) (segs : List (List Envelope))
    (s : Node) (hlog : cs.Produces 0 0 0 ds) (hresent : cs.Resent ds)
    (hsegs : Segmented (cs.log ds) segs) (hne : segs ≠ []) (hs : Reachable segs s) :
    s.done.Pairwise (· < ·) ∧
    (∀ p ∈ s.done, ∃ e ∈ cs.log ds, e.position = some p) ∧
    (∀ z ∈ cs.appended ds, z ∈ s.done ↔ ¬Above s.loop.highwater z) ∧
    (∀ z ∈ cs.appended ds, Above s.ckpt.2 z →
      ∃ e ∈ logFrom segs s.ckpt.1, e.position = some z) ∧
    (logFrom segs s.loop.pos = [] → ∀ z ∈ cs.appended ds, z ∈ s.done) ∧
    ∃ t, Relation.ReflTransGen (Reads segs) s t ∧ logFrom segs t.loop.pos = [] ∧
      ∀ z ∈ cs.appended ds, z ∈ t.done := by
  have hS := Commits.source_log hlog
  have hR := Commits.resends_log hlog hresent
  have h := inv_reachable hS hR hsegs hne hs
  refine ⟨h.taken.sorted,h.fromLog,?_,?_,h.done_at_end hS hR,?_⟩
  · exact fun z hz => ⟨h.taken.covered z,h.taken.complete z hz⟩
  · intro z hz ha
    obtain ⟨B,e,C,hsplit,he,-⟩ := h.ckptAhead z hz ha
    exact ⟨e,by simp [hsplit],he⟩
  · obtain ⟨t,hst,ht,hend⟩ := exists_reads hS hR hsegs h
    exact ⟨t,hst,hend,ht.done_at_end hS hR hend⟩

/-- A read that ends on the interrupted append, a checkpoint, a crash, and the reads that go on from there: the rest of
the first segment, and the second one. -/
theorem sample_applied_exactly_once : ∃ s : Node,
    Reachable [(Commits.sample.log Commits.sampleDeliveries).take 3,
      (Commits.sample.log Commits.sampleDeliveries).drop 3] s ∧ s.ckpt.2 = some (toLex (1,0)) ∧
    ∃ t, Relation.ReflTransGen (Reads [(Commits.sample.log Commits.sampleDeliveries).take 3,
        (Commits.sample.log Commits.sampleDeliveries).drop 3]) s t ∧
      ∀ z ∈ Commits.sample.appended Commits.sampleDeliveries, z ∈ t.done := by
  set segs := [(Commits.sample.log Commits.sampleDeliveries).take 3,
    (Commits.sample.log Commits.sampleDeliveries).drop 3] with hsegs
  let s₁ := Node.start.after (readPage Node.start.loop (readAt segs (.startOf 0) 2 false) none)
  let s₂ : Node := { s₁ with ckpt := Node.checkpoint s₁.loop }
  let s₃ := s₂.reborn s₂.ckpt
  have hfirst : Step segs .start s₁ := @Step.read segs .start 2 false (by decide) nofun
  have hreach : Reachable segs s₃ :=
    ((Relation.ReflTransGen.single hfirst).tail (.checkpoint s₁)).tail (.crash s₂)
  have hseg : Segmented (Commits.sample.log Commits.sampleDeliveries) segs := by
    refine ⟨?_,?_⟩
    · rw [hsegs,List.flatten_cons,List.flatten_singleton,List.take_append_drop]
      exact List.filter_eq_self.mpr (by decide +kernel)
    · intro k e he n hn
      have hnone : ∀ e ∈ Commits.sample.log Commits.sampleDeliveries, rotationTarget e = none := by
        decide +kernel
      match k with
      | 0 =>
        rw [hnone e (List.mem_of_mem_take he)] at hn
        cases hn
      | 1 =>
        rw [hnone e (List.mem_of_mem_drop he)] at hn
        cases hn
      | k+2 => simp [hsegs] at he
  obtain ⟨-,-,-,-,-,t,hst,-,hdone⟩ := applied_exactly_once Commits.sample Commits.sampleDeliveries segs s₃
    Commits.sample_produces Commits.sample_resent hseg (by simp [hsegs]) hreach
  exact ⟨s₃,hreach,by decide +kernel,t,hst,hdone⟩

end ElectricCircuits
