import ElectricCircuits.Lib.AssocMap
import Mathlib.Logic.Relation

/-! The fence of a deployment handoff: control mutations are admitted and give their permits back,
admission is closed and opened, the sequencer records receipts, and a quiesce call hands the engine's
state over under one of them. -/
namespace ElectricCircuits

/-- In which order receipts and closures of admission came. -/
structure SourceReceiptProgress where
  nextSequence : ℕ
  sequences : AssocMap String ℕ
  closureWatermark : Option ℕ

namespace SourceReceiptProgress

def default : SourceReceiptProgress := ⟨0,.empty,none⟩

def record (p : SourceReceiptProgress) (id : String) : SourceReceiptProgress :=
  if (p.sequences.get? id).isSome then p
  else { p with
    nextSequence := p.nextSequence+1
    sequences := p.sequences.insert id (p.nextSequence+1) }

/-- A receipt of the catalog stays on the frontier of a closure that came before it was read. -/
def recordRestored (p : SourceReceiptProgress) (id : String) : SourceReceiptProgress :=
  if (p.sequences.get? id).isSome then p
  else
    match p.closureWatermark with
    | some w => { p with sequences := p.sequences.insert id w }
    | none => p.record id

def snapshotClosure (p : SourceReceiptProgress) : SourceReceiptProgress :=
  { p with closureWatermark := some p.nextSequence }

def clearClosure (p : SourceReceiptProgress) : SourceReceiptProgress := { p with closureWatermark := none }

def isAfterClosure (p : SourceReceiptProgress) (id : String) : Bool :=
  match p.closureWatermark,p.sequences.get? id with
  | some w,some n => w < n
  | _,_ => false

def hasClosure (p : SourceReceiptProgress) : Bool := p.closureWatermark.isSome

/-- The numbers given out so far. -/
structure Bounded (p : SourceReceiptProgress) : Prop where
  sequences : ∀ id n, p.sequences.get? id = some n → n ≤ p.nextSequence
  watermark : ∀ w ∈ p.closureWatermark, w ≤ p.nextSequence

lemma record_known {p : SourceReceiptProgress} {id : String} (h : (p.sequences.get? id).isSome) :
    p.record id = p := if_pos h

lemma restored_known {p : SourceReceiptProgress} {id : String} (h : (p.sequences.get? id).isSome) :
    p.recordRestored id = p := if_pos h

lemma restored_open {p : SourceReceiptProgress} {id : String} (hw : p.closureWatermark = none) :
    p.recordRestored id = p.record id := by
  unfold recordRestored
  rw [hw]
  split_ifs with hid
  · exact (record_known hid).symm
  · rfl

lemma restored_closed {p : SourceReceiptProgress} {id : String} {w : ℕ}
    (h : ¬(p.sequences.get? id).isSome) (hw : p.closureWatermark = some w) :
    p.recordRestored id = { p with sequences := p.sequences.insert id w } := by
  unfold recordRestored
  rw [if_neg h,hw]

@[simp] lemma record_watermark (p : SourceReceiptProgress) (id : String) :
    (p.record id).closureWatermark = p.closureWatermark := by
  unfold record
  split_ifs <;> rfl

@[simp] lemma restored_watermark (p : SourceReceiptProgress) (id : String) :
    (p.recordRestored id).closureWatermark = p.closureWatermark := by
  by_cases hid : (p.sequences.get? id).isSome
  · rw [restored_known hid]
  · cases hw : p.closureWatermark with
    | none => rw [restored_open hw,record_watermark,hw]
    | some w => rw [restored_closed hid hw,hw]

lemma Bounded.record {p : SourceReceiptProgress} (h : p.Bounded) (id : String) : (p.record id).Bounded := by
  unfold SourceReceiptProgress.record
  split_ifs with hid
  · exact h
  · refine ⟨fun id' n hn => ?_,fun w hw => Nat.le_succ_of_le (h.watermark w hw)⟩
    rw [AssocMap.get?_insert_eq] at hn
    split_ifs at hn with he
    · exact Nat.le_of_eq (Option.some.inj hn).symm
    · exact Nat.le_succ_of_le (h.sequences id' n hn)

lemma Bounded.recordRestored {p : SourceReceiptProgress} (h : p.Bounded) (id : String) :
    (p.recordRestored id).Bounded := by
  by_cases hid : (p.sequences.get? id).isSome
  · rwa [restored_known hid]
  · cases hw : p.closureWatermark with
    | none => exact restored_open hw ▸ h.record id
    | some w =>
      rw [restored_closed hid hw]
      refine ⟨fun id' n hn => ?_,h.watermark⟩
      rw [AssocMap.get?_insert_eq] at hn
      split_ifs at hn with he
      · exact Option.some.inj hn ▸ h.watermark w hw
      · exact h.sequences id' n hn

/-- Which receipts are past a closure after one more was recorded. -/
lemma past_record {p : SourceReceiptProgress} {id id' : String} {n : ℕ}
    (hn : (p.record id).sequences.get? id' = some n) :
    id' = id ∧ ¬(p.sequences.get? id).isSome ∨ p.sequences.get? id' = some n := by
  unfold record at hn
  split_ifs at hn with hid
  · exact .inr hn
  · rw [AssocMap.get?_insert_eq] at hn
    split_ifs at hn with he
    · exact .inl ⟨he.symm,hid⟩
    · exact .inr hn

lemma isSome_record {p : SourceReceiptProgress} {id' : String} (id : String)
    (h : (p.sequences.get? id').isSome ∨ id' = id) : ((p.record id).sequences.get? id').isSome := by
  unfold record
  split_ifs with hid
  · exact h.elim (fun h => h) fun h => h ▸ hid
  · rw [AssocMap.get?_insert_eq]
    split_ifs with he
    · rfl
    · exact h.resolve_right (Ne.symm he)

lemma isSome_restored {p : SourceReceiptProgress} {id' : String} (id : String)
    (h : (p.sequences.get? id').isSome) : ((p.recordRestored id).sequences.get? id').isSome := by
  by_cases hid : (p.sequences.get? id).isSome
  · rwa [restored_known hid]
  · cases hw : p.closureWatermark with
    | none => exact restored_open hw ▸ isSome_record id (.inl h)
    | some w =>
      rw [restored_closed hid hw,AssocMap.get?_insert_eq]
      split_ifs
      · rfl
      · exact h

/-- Restoring a receipt puts none past a closure. -/
lemma past_restored {p : SourceReceiptProgress} {id id' : String} {n w : ℕ}
    (hw : p.closureWatermark = some w) (hn : (p.recordRestored id).sequences.get? id' = some n)
    (hlt : w < n) : p.sequences.get? id' = some n := by
  by_cases hid : (p.sequences.get? id).isSome
  · rwa [restored_known hid] at hn
  · rw [restored_closed hid hw,AssocMap.get?_insert_eq] at hn
    split_ifs at hn with he
    · exact absurd (Option.some.inj hn) (Nat.ne_of_lt hlt)
    · exact hn

end SourceReceiptProgress

/-- What happened, in order: mutations with their permits, receipts, and the quiesce calls that the
ownership row accepted, with what admission was then. -/
inductive HandoffEvent where
  | admitted (permit : ℕ)
  | finished (permit : ℕ)
  | recorded (id : String)
  | accepted (id : String) (admitting : Bool)
  deriving DecidableEq

/-- Where a call to close admission is; a quiesce call goes on after it. -/
inductive CallPhase where
  | closed (transitioned : Bool)
  | drained (transitioned : Bool)
  | fenced
  | waited
  | found
  | approved
  | quiesced
  deriving DecidableEq

/-- A close call, or a quiesce call with the source commit id that it names. -/
structure HandoffCall where
  quiesce : Option String
  phase : CallPhase
  deriving DecidableEq

/-- The engine's control admission and its receipts. Callers of `admit_control` that hold no permit are
only counted: those past the first check, and those that counted themselves and have yet to look again.
`opening` and `clearing` count the calls of `open_control_admission` before and after their store. -/
structure Handoff where
  admitting : Bool
  shutdown : Bool
  inFlight : ℕ
  checked : ℕ
  counted : ℕ
  holders : List ℕ
  nextPermit : ℕ
  progress : SourceReceiptProgress
  receipts : List String
  catalog : List String
  sending : List String
  landed : List String
  restoring : List (List String)
  opening : ℕ
  clearing : ℕ
  calls : List HandoffCall
  handedOver : List String
  history : List HandoffEvent

namespace Handoff

/-- A fresh process over a catalog that has receipts already. -/
def boot (catalog : List String) : Handoff :=
  ⟨true,false,0,0,0,[],0,.default,[],catalog,[],[],[],0,0,[],[],[]⟩

/-- `ensure_control_admitted` -/
def admits (s : Handoff) : Bool := s.admitting && !s.shutdown

/-- The steps that a condition will be put on, and the others. -/
inductive Act where
  | open_
  | close
  | other

/-- What a close or quiesce call leaves of the receipt order. -/
def barrier (p : SourceReceiptProgress) (transitioned : Bool) : SourceReceiptProgress :=
  if transitioned || !p.hasClosure then p.snapshotClosure else p

/-- A close call returns; a quiesce call goes on if it found admission closed. -/
def behindBarrier (quiesce : Option String) (transitioned : Bool) : List HandoffCall :=
  if quiesce.isSome && !transitioned then [⟨quiesce,.fenced⟩] else []

/-- One atomic action of a control mutation, of an admin call, of the sequencer or of a catalog fold. A
call may be refused, fail or be given up at any time. -/
inductive Step : Handoff → Act → Handoff → Prop where
  | check (s : Handoff) (h : s.admits = true) : Step s .other { s with checked := s.checked+1 }
  | count (s : Handoff) {n : ℕ} (h : s.checked = n+1) :
    Step s .other { s with checked := n, counted := s.counted+1, inFlight := s.inFlight+1 }
  | enter (s : Handoff) {n : ℕ} (h : s.counted = n+1) (hopen : s.admits = true) :
    Step s .other { s with
      counted := n
      holders := s.nextPermit::s.holders
      nextPermit := s.nextPermit+1
      history := s.history ++ [.admitted s.nextPermit] }
  | giveBack (s : Handoff) {n : ℕ} (h : s.counted = n+1) (hclosed : s.admits = false) :
    Step s .other { s with counted := n, inFlight := s.inFlight-1 }
  | finish (s : Handoff) {m : ℕ} {before after : List ℕ} (h : s.holders = before ++ m::after) :
    Step s .other { s with
      holders := before ++ after
      inFlight := s.inFlight-1
      history := s.history ++ [.finished m] }
  /- `close_control_admission`, at boot and at shutdown. -/
  | shut (s : Handoff) : Step s .close { s with admitting := false }
  | call (s : Handoff) (quiesce : Option String) :
    Step s .close { s with
      admitting := false
      calls := s.calls ++ [⟨quiesce,.closed s.admitting⟩] }
  | drain (s : Handoff) {quiesce : Option String} {transitioned : Bool} {before after : List HandoffCall}
    (h : s.calls = before ++ ⟨quiesce,.closed transitioned⟩::after) (hzero : s.inFlight = 0) :
    Step s .other { s with calls := before ++ ⟨quiesce,.drained transitioned⟩::after }
  | lock (s : Handoff) {quiesce : Option String} {transitioned : Bool} {before after : List HandoffCall}
    (h : s.calls = before ++ ⟨quiesce,.drained transitioned⟩::after) :
    Step s .other { s with
      progress := barrier s.progress transitioned
      calls := before ++ behindBarrier quiesce transitioned ++ after }
  | wait (s : Handoff) {quiesce : Option String} {before after : List HandoffCall}
    (h : s.calls = before ++ ⟨quiesce,.fenced⟩::after) (hzero : s.inFlight = 0) :
    Step s .other { s with calls := before ++ ⟨quiesce,.waited⟩::after }
  | find (s : Handoff) {id : String} {before after : List HandoffCall}
    (h : s.calls = before ++ ⟨some id,.waited⟩::after) (hreceipt : id ∈ s.receipts) :
    Step s .other { s with calls := before ++ ⟨some id,.found⟩::after }
  | approve (s : Handoff) {id : String} {before after : List HandoffCall}
    (h : s.calls = before ++ ⟨some id,.found⟩::after) (hafter : s.progress.isAfterClosure id = true) :
    Step s .other { s with calls := before ++ ⟨some id,.approved⟩::after }
  /- The ownership row becomes `quiesced`. -/
  | accept (s : Handoff) {id : String} {before after : List HandoffCall}
    (h : s.calls = before ++ ⟨some id,.approved⟩::after) :
    Step s .other { s with
      calls := before ++ ⟨some id,.quiesced⟩::after
      history := s.history ++ [.accepted id s.admits] }
  | handOver (s : Handoff) {id : String} {before after : List HandoffCall}
    (h : s.calls = before ++ ⟨some id,.quiesced⟩::after) :
    Step s .other { s with
      calls := before ++ after
      shutdown := true
      handedOver := s.handedOver ++ [id] }
  | drop (s : Handoff) {c : HandoffCall} {before after : List HandoffCall}
    (h : s.calls = before ++ c::after) : Step s .other { s with calls := before ++ after }
  | shutDown (s : Handoff) : Step s .other { s with shutdown := true }
  | opens (s : Handoff) (h : s.shutdown = false) : Step s .other { s with opening := s.opening+1 }
  | store (s : Handoff) {n : ℕ} (h : s.opening = n+1) :
    Step s .open_ { s with opening := n, clearing := s.clearing+1, admitting := true }
  | clear (s : Handoff) {n : ℕ} (h : s.clearing = n+1) :
    Step s .other { s with clearing := n, progress := s.progress.clearClosure }
  | record (s : Handoff) (id : String) :
    Step s .other { s with
      progress := s.progress.record id
      sending := s.sending ++ [id]
      history := s.history ++ [.recorded id] }
  | land (s : Handoff) {id : String} {before after : List String} (h : s.sending = before ++ id::after) :
    Step s .other { s with
      sending := before ++ after
      catalog := s.catalog ++ [id]
      landed := s.landed ++ [id] }
  | sendFails (s : Handoff) {id : String} {before after : List String}
    (h : s.sending = before ++ id::after) : Step s .other { s with sending := before ++ after }
  | publish (s : Handoff) {id : String} {before after : List String}
    (h : s.landed = before ++ id::after) :
    Step s .other { s with landed := before ++ after, receipts := s.receipts ++ [id] }
  /- `apply_catalog`, on a fold that may have been read some time ago. -/
  | restore (s : Handoff) {ids : List String} (h : ids ⊆ s.catalog) :
    Step s .other { s with
      progress := ids.foldl (·.recordRestored ·) s.progress
      restoring := s.restoring ++ [ids] }
  | extend (s : Handoff) {ids : List String} {before after : List (List String)}
    (h : s.restoring = before ++ ids::after) :
    Step s .other { s with restoring := before ++ after, receipts := s.receipts ++ ids }

/-- The receipt for `id` was recorded after every mutation ever admitted had finished, and none has been
admitted since. -/
def Fenced (history : List HandoffEvent) (id : String) : Prop :=
  .recorded id ∈ history ∧ ∀ before after, history = before ++ .recorded id::after →
    (∀ m, .admitted m ∈ before → .finished m ∈ before) ∧ ∀ m, .admitted m ∉ after

/-- The condition on a step: admission is not opened while a quiesce call is under way; and whoever
closes it while it is open finds no closure of the receipts left, and no call about to install one. -/
def Allowed (s : Handoff) : Act → Prop
  | .open_ => ∀ c ∈ s.calls, c.quiesce = none
  | .close => s.admitting = true → s.progress.closureWatermark = none ∧
    ∀ c ∈ s.calls, ∀ transitioned, c.phase ≠ .drained transitioned
  | .other => True

def Steps : Handoff → Handoff → Prop := Relation.ReflTransGen fun s t => ∃ a, Step s a t

/-- A run whose steps all meet the condition. -/
def GuardedSteps : Handoff → Handoff → Prop :=
  Relation.ReflTransGen fun s t => ∃ a, s.Allowed a ∧ Step s a t

lemma snoc_split {α : Type*} {l before after : List α} {x y : α} (h : l ++ [y] = before ++ x::after) :
    before = l ∧ x = y ∧ after = [] ∨ ∃ rest, after = rest ++ [y] ∧ l = before ++ x::rest := by
  rcases List.eq_nil_or_concat after with rfl | ⟨rest,z,rfl⟩
  · obtain ⟨hl,hx⟩ := List.append_inj' h rfl
    exact .inl ⟨hl.symm,(List.cons.inj hx).1.symm,rfl⟩
  · rw [List.concat_eq_append,← List.cons_append,← List.append_assoc] at h
    obtain ⟨hl,hx⟩ := List.append_inj' h rfl
    exact .inr ⟨rest,by rw [List.concat_eq_append,(List.cons.inj hx).1],hl⟩

/-- Every mutation ever admitted has finished. -/
def Settled (history : List HandoffEvent) : Prop := ∀ m, .admitted m ∈ history → .finished m ∈ history

lemma Fenced.settled {history : List HandoffEvent} {id : String} (h : Fenced history id) :
    Settled history := by
  intro m hm
  obtain ⟨before,after,heq⟩ := List.append_of_mem h.1
  obtain ⟨hbefore,hafter⟩ := h.2 before after heq
  rw [heq] at hm ⊢
  rcases List.mem_append.mp hm with hm | hm
  · exact List.mem_append_left _ (hbefore m hm)
  · rcases List.mem_cons.mp hm with hm | hm
    · cases hm
    · exact absurd hm (hafter m)

/-- A receipt keeps its place until a mutation is admitted. -/
lemma Fenced.snoc {history : List HandoffEvent} {id : String} {e : HandoffEvent} (h : Fenced history id)
    (he : ∀ m, e ≠ .admitted m) : Fenced (history ++ [e]) id := by
  refine ⟨List.mem_append_left _ h.1,fun before after heq => ?_⟩
  rcases snoc_split heq with ⟨rfl,-,rfl⟩ | ⟨rest,rfl,hl⟩
  · exact ⟨h.settled,fun m => List.not_mem_nil⟩
  · obtain ⟨hbefore,hafter⟩ := h.2 before rest hl
    refine ⟨hbefore,fun m hm => ?_⟩
    rcases List.mem_append.mp hm with hm | hm
    · exact hafter m hm
    · exact he m (List.mem_singleton.mp hm).symm

/-- The first receipt for an id, when nothing is under way. -/
lemma fenced_record {history : List HandoffEvent} {id : String} (hnew : .recorded id ∉ history)
    (hall : Settled history) : Fenced (history ++ [.recorded id]) id := by
  refine ⟨List.mem_append_right _ (.head _),fun before after heq => ?_⟩
  rcases snoc_split heq with ⟨rfl,-,rfl⟩ | ⟨rest,rfl,hl⟩
  · exact ⟨hall,fun m => List.not_mem_nil⟩
  · exact absurd (hl ▸ List.mem_append_right _ (.head _)) hnew

/-- What holds at any time of a run whose steps meet the condition. Of a closure that admission is still
closed for: nothing is under way, and what was recorded since is fenced. -/
structure Inv (s : Handoff) : Prop where
  bounded : s.progress.Bounded
  known : ∀ id, .recorded id ∈ s.history → (s.progress.sequences.get? id).isSome
  inFlight : s.inFlight = s.counted+s.holders.length
  finished : ∀ m, .admitted m ∈ s.history → m ∈ s.holders ∨ .finished m ∈ s.history
  drained : s.admitting = false → ∀ c ∈ s.calls, ∀ transitioned, c.phase = .drained transitioned →
    s.holders = []
  closure : s.admitting = false → ∀ w ∈ s.progress.closureWatermark, s.holders = [] ∧
    ∀ id n, s.progress.sequences.get? id = some n → w < n → Fenced s.history id
  closed : ∀ c ∈ s.calls, c.quiesce ≠ none → s.admitting = false
  approved : ∀ c ∈ s.calls, ∀ id, c.quiesce = some id → c.phase = .approved ∨ c.phase = .quiesced →
    Fenced s.history id
  accepted : ∀ before after id admitting, s.history = before ++ .accepted id admitting::after →
    admitting = false ∧ Fenced before id
  handedOver : ∀ id ∈ s.handedOver, s.shutdown = true ∧ Fenced s.history id

lemma inv_boot (catalog : List String) : Inv (boot catalog) where
  bounded := .mk (fun id n h => by cases h) fun w h => by cases h
  known := fun id h => by cases h
  inFlight := rfl
  finished := fun m h => by cases h
  drained := fun h => by cases h
  closure := fun h => by cases h
  closed := fun c h => by cases h
  approved := fun c h => by cases h
  accepted := fun before after id admitting h => by simp [boot] at h
  handedOver := fun id h => by cases h

/-- Events other than admissions keep what is said about the history. -/
lemma Inv.accepted_snoc {s : Handoff} (h : Inv s) {e : HandoffEvent}
    (he : ∀ id admitting, e = .accepted id admitting → admitting = false ∧ Fenced s.history id)
    (before after : List HandoffEvent) (id : String) (admitting : Bool)
    (heq : s.history ++ [e] = before ++ .accepted id admitting::after) :
    admitting = false ∧ Fenced before id := by
  rcases snoc_split heq with ⟨rfl,hx,-⟩ | ⟨rest,-,hl⟩
  · exact he id admitting hx.symm
  · exact h.accepted before rest id admitting hl

/-- A call goes on. -/
lemma Inv.goOn {s : Handoff} (h : Inv s) {q : Option String} {phase : CallPhase}
    {before after : List HandoffCall} (phase' : CallPhase) (hc : s.calls = before ++ ⟨q,phase⟩::after)
    (hdrained : ∀ t, phase' = .drained t → s.admitting = false → s.holders = [])
    (hfenced : ∀ id, q = some id → phase' = .approved ∨ phase' = .quiesced → Fenced s.history id) :
    Inv { s with calls := before ++ ⟨q,phase'⟩::after } := by
  have hmem : ∀ c ∈ before ++ (⟨q,phase'⟩ : HandoffCall)::after, c = ⟨q,phase'⟩ ∨ c ∈ s.calls := by
    intro c hm
    rw [hc]
    simp only [List.mem_append,List.mem_cons] at hm ⊢
    tauto
  have hold : (⟨q,phase⟩ : HandoffCall) ∈ s.calls := hc ▸ List.mem_append_right _ (.head _)
  refine { h with drained := ?_, closed := ?_, approved := ?_ }
  · intro ha c hm t ht
    rcases hmem c hm with rfl | hm
    · exact hdrained t ht ha
    · exact h.drained ha c hm t ht
  · intro c hm hq
    rcases hmem c hm with rfl | hm
    · exact h.closed _ hold hq
    · exact h.closed c hm hq
  · intro c hm id hid hphase
    rcases hmem c hm with rfl | hm
    · exact hfenced id hid hphase
    · exact h.approved c hm id hid hphase

/-- Some calls are over. -/
lemma Inv.sublist {s : Handoff} (h : Inv s) (calls : List HandoffCall) (hc : ∀ c ∈ calls, c ∈ s.calls) :
    Inv { s with calls := calls } :=
  { h with
    drained := fun ha c hm => h.drained ha c (hc c hm)
    closed := fun c hm => h.closed c (hc c hm)
    approved := fun c hm => h.approved c (hc c hm) }

lemma Inv.enter {s : Handoff} (h : Inv s) {n : ℕ} (hn : s.counted = n+1) (hopen : s.admits = true) :
    Inv { s with
      counted := n
      holders := s.nextPermit::s.holders
      nextPermit := s.nextPermit+1
      history := s.history ++ [.admitted s.nextPermit] } := by
  have hadmits : s.admitting = true ∧ s.shutdown = false := by
    simpa [admits] using hopen
  have hnot : ∀ {P : Prop}, s.admitting = false → P := fun hf => by simp [hadmits.1] at hf
  refine { h with
    known := fun id hid => h.known id ?_
    inFlight := ?_
    finished := ?_
    drained := hnot
    closure := hnot
    approved := ?_
    accepted := h.accepted_snoc (by simp)
    handedOver := ?_ }
  · simpa using hid
  · have := h.inFlight
    simp only [List.length_cons]
    omega
  · intro m hm
    rcases List.mem_append.mp hm with hm | hm
    · exact (h.finished m hm).imp (List.mem_cons_of_mem _) (List.mem_append_left _)
    · simp only [List.mem_singleton,HandoffEvent.admitted.injEq] at hm
      exact .inl (hm ▸ .head _)
  · intro c hc id hq
    exact hnot (h.closed c hc (by simp [hq]))
  · intro id hid
    exact absurd (h.handedOver id hid).1 (by simp [hadmits.2])

lemma Inv.finish {s : Handoff} (h : Inv s) {m : ℕ} {before after : List ℕ}
    (hm : s.holders = before ++ m::after) :
    Inv { s with
      holders := before ++ after
      inFlight := s.inFlight-1
      history := s.history ++ [.finished m] } := by
  have hsnoc : ∀ id, Fenced s.history id → Fenced (s.history ++ [.finished m]) id :=
    fun id hf => hf.snoc (by simp)
  have hnot : ∀ {P : Prop}, s.holders = [] → P := fun he => by simp [hm] at he
  refine { h with
    known := fun id hid => h.known id (by simpa using hid)
    inFlight := ?_
    finished := ?_
    drained := fun ha c hc t ht => hnot (h.drained ha c hc t ht)
    closure := fun ha w hw => hnot (h.closure ha w hw).1
    approved := fun c hc id hq hp => hsnoc id (h.approved c hc id hq hp)
    accepted := h.accepted_snoc (by simp)
    handedOver := fun id hid => ⟨(h.handedOver id hid).1,hsnoc id (h.handedOver id hid).2⟩ }
  · have := h.inFlight
    simp only [hm,List.length_append,List.length_cons] at this ⊢
    omega
  · intro k hk
    have hk : .admitted k ∈ s.history := by simpa using hk
    rcases h.finished k hk with hh | hh
    · rw [hm] at hh
      simp only [List.mem_append,List.mem_cons,HandoffEvent.finished.injEq] at hh ⊢
      tauto
    · exact .inr (List.mem_append_left _ hh)

lemma Inv.call {s : Handoff} (h : Inv s) (hallowed : s.Allowed .close) (quiesce : Option String) :
    Inv { s with
      admitting := false
      calls := s.calls ++ [⟨quiesce,.closed s.admitting⟩] } := by
  have hopen : ∀ {P : Prop}, (s.admitting = false → P) →
      (s.progress.closureWatermark = none ∧ (∀ c ∈ s.calls, ∀ t, c.phase ≠ .drained t) → P) → P := by
    intro P hclosed hleft
    cases ha : s.admitting with
    | false => exact hclosed ha
    | true => exact hleft (hallowed ha)
  refine { h with drained := ?_, closure := ?_, closed := fun _ _ _ => rfl, approved := ?_ }
  · intro _ c hc t ht
    rcases List.mem_append.mp hc with hc | hc
    · exact hopen (fun ha => h.drained ha c hc t ht) fun hn => absurd ht (hn.2 c hc t)
    · simp [List.mem_singleton.mp hc] at ht
  · intro _ w hw
    exact hopen (fun ha => h.closure ha w hw) fun hn => by simp [hn.1] at hw
  · intro c hc id hq hp
    rcases List.mem_append.mp hc with hc | hc
    · exact h.approved c hc id hq hp
    · simp [List.mem_singleton.mp hc] at hp

lemma Inv.shut {s : Handoff} (h : Inv s) (hallowed : s.Allowed .close) : Inv { s with admitting := false } :=
  (h.call hallowed none).sublist _ fun _ hc => List.mem_append_left _ hc

lemma Inv.drain {s : Handoff} (h : Inv s) {q : Option String} {t : Bool} {before after : List HandoffCall}
    (hc : s.calls = before ++ ⟨q,.closed t⟩::after) (hzero : s.inFlight = 0) :
    Inv { s with calls := before ++ ⟨q,.drained t⟩::after } := by
  have hnone : s.holders = [] := by
    have := h.inFlight
    exact List.length_eq_zero_iff.mp (by omega)
  exact h.goOn _ hc (fun _ _ _ => hnone) (by simp)

/-- A closure is taken when nothing is under way. -/
lemma Inv.snapshot {s : Handoff} (h : Inv s) (hnone : s.admitting = false → s.holders = []) :
    Inv { s with progress := s.progress.snapshotClosure } :=
  { h with
    bounded := ⟨h.bounded.sequences,fun w hw => Nat.le_of_eq (Option.some.inj hw).symm⟩
    closure := fun ha w hw => by
      refine ⟨hnone ha,fun id n hn hlt => ?_⟩
      have hle := h.bounded.sequences id n hn
      have hw : w = s.progress.nextSequence := (Option.some.inj hw).symm
      omega }

lemma Inv.lock {s : Handoff} (h : Inv s) {q : Option String} {t : Bool} {before after : List HandoffCall}
    (hc : s.calls = before ++ ⟨q,.drained t⟩::after) :
    Inv { s with
      progress := barrier s.progress t
      calls := before ++ behindBarrier q t ++ after } := by
  have hold : (⟨q,.drained t⟩ : HandoffCall) ∈ s.calls := hc ▸ List.mem_append_right _ (.head _)
  have hbarrier : Inv { s with progress := barrier s.progress t } := by
    unfold barrier
    split_ifs
    · exact h.snapshot fun ha => h.drained ha _ hold t rfl
    · exact h
  unfold behindBarrier
  split_ifs
  · have hgone := hbarrier.goOn .fenced hc (by simp) (by simp)
    simpa using hgone
  · refine hbarrier.sublist _ fun c hm => ?_
    rw [hc]
    simp only [List.append_nil,List.mem_append,List.mem_cons] at hm ⊢
    tauto

lemma Inv.approve {s : Handoff} (h : Inv s) {id : String} {before after : List HandoffCall}
    (hc : s.calls = before ++ ⟨some id,.found⟩::after) (hafter : s.progress.isAfterClosure id = true) :
    Inv { s with calls := before ++ ⟨some id,.approved⟩::after } := by
  have hold : (⟨some id,.found⟩ : HandoffCall) ∈ s.calls := hc ▸ List.mem_append_right _ (.head _)
  have hfenced : Fenced s.history id := by
    unfold SourceReceiptProgress.isAfterClosure at hafter
    split at hafter
    · exact (h.closure (h.closed _ hold (by simp)) _ ‹_›).2 id _ ‹_› (of_decide_eq_true hafter)
    · contradiction
  exact h.goOn _ hc (by simp) fun id' hid _ => Option.some.inj hid ▸ hfenced

lemma Inv.accept {s : Handoff} (h : Inv s) {id : String} {before after : List HandoffCall}
    (hc : s.calls = before ++ ⟨some id,.approved⟩::after) :
    Inv { s with
      calls := before ++ ⟨some id,.quiesced⟩::after
      history := s.history ++ [.accepted id s.admits] } := by
  have hold : (⟨some id,.approved⟩ : HandoffCall) ∈ s.calls := hc ▸ List.mem_append_right _ (.head _)
  have hclosed := h.closed _ hold (by simp)
  have hfenced := h.approved _ hold id rfl (.inl rfl)
  have hon := h.goOn .quiesced hc (by simp) fun id' hid _ => Option.some.inj hid ▸ hfenced
  have hsnoc : ∀ id', Fenced s.history id' → Fenced (s.history ++ [.accepted id s.admits]) id' :=
    fun id' hf => hf.snoc (by simp)
  refine { hon with
    known := fun id' hid => h.known id' (by simpa using hid)
    finished := fun m hm => ?_
    closure := fun ha w hw => ?_
    approved := fun c hm id' hq hp => hsnoc id' (hon.approved c hm id' hq hp)
    accepted := h.accepted_snoc fun id' admitting he => ?_
    handedOver := fun id' hid => ⟨(h.handedOver id' hid).1,hsnoc id' (h.handedOver id' hid).2⟩ }
  · simpa using h.finished m (by simpa using hm)
  · obtain ⟨hnone,hpast⟩ := h.closure ha w hw
    exact ⟨hnone,fun id' n hn hlt => hsnoc id' (hpast id' n hn hlt)⟩
  · obtain ⟨rfl,rfl⟩ := HandoffEvent.accepted.inj he
    exact ⟨by simp [admits,hclosed],hfenced⟩

lemma Inv.handOver {s : Handoff} (h : Inv s) {id : String} {before after : List HandoffCall}
    (hc : s.calls = before ++ ⟨some id,.quiesced⟩::after) :
    Inv { s with
      calls := before ++ after
      shutdown := true
      handedOver := s.handedOver ++ [id] } := by
  have hold : (⟨some id,.quiesced⟩ : HandoffCall) ∈ s.calls := hc ▸ List.mem_append_right _ (.head _)
  have hgone := h.sublist (before ++ after) fun c hm => by
    rw [hc]
    simp only [List.mem_append,List.mem_cons] at hm ⊢
    tauto
  refine { hgone with handedOver := fun id' hid => ⟨rfl,?_⟩ }
  rcases List.mem_append.mp hid with hid | hid
  · exact (h.handedOver id' hid).2
  · exact List.mem_singleton.mp hid ▸ h.approved _ hold id rfl (.inr rfl)

/-- A new receipt is past the closure, and every mutation admitted has finished by then. -/
lemma Inv.record {s : Handoff} (h : Inv s) (id : String) (sending : List String) :
    Inv { s with
      progress := s.progress.record id
      sending := sending
      history := s.history ++ [.recorded id] } := by
  have hsnoc : ∀ id', Fenced s.history id' → Fenced (s.history ++ [.recorded id]) id' :=
    fun id' hf => hf.snoc (by simp)
  refine { h with
    bounded := h.bounded.record id
    known := fun id' hid => SourceReceiptProgress.isSome_record id ?_
    finished := fun m hm => ?_
    closure := fun ha w hw => ?_
    approved := fun c hm id' hq hp => hsnoc id' (h.approved c hm id' hq hp)
    accepted := h.accepted_snoc (by simp)
    handedOver := fun id' hid => ⟨(h.handedOver id' hid).1,hsnoc id' (h.handedOver id' hid).2⟩ }
  · simp only [List.mem_append,List.mem_singleton,HandoffEvent.recorded.injEq] at hid
    exact hid.imp_left (h.known id')
  · simpa using h.finished m (by simpa using hm)
  · obtain ⟨hnone,hpast⟩ := h.closure ha w (by simpa using hw)
    refine ⟨hnone,fun id' n hn hlt => ?_⟩
    rcases SourceReceiptProgress.past_record hn with ⟨rfl,hnew⟩ | hold
    · refine fenced_record (fun hm => hnew (h.known id' hm)) fun m hm => ?_
      exact (h.finished m hm).resolve_left (by simp [hnone])
    · exact hsnoc id' (hpast id' n hold hlt)

lemma Inv.recordRestored {s : Handoff} (h : Inv s) (id : String) :
    Inv { s with progress := s.progress.recordRestored id } :=
  { h with
    bounded := h.bounded.recordRestored id
    known := fun id' hid => SourceReceiptProgress.isSome_restored id (h.known id' hid)
    closure := fun ha w hw => by
      rw [SourceReceiptProgress.restored_watermark] at hw
      obtain ⟨hnone,hpast⟩ := h.closure ha w hw
      refine ⟨hnone,fun id' n hn hlt => hpast id' n ?_ hlt⟩
      exact SourceReceiptProgress.past_restored hw hn hlt }

lemma Inv.restore {s : Handoff} (h : Inv s) (ids : List String) :
    Inv { s with progress := ids.foldl (·.recordRestored ·) s.progress } := by
  induction ids generalizing s with
  | nil => exact h
  | cons id ids ih => exact ih (h.recordRestored id)

lemma Inv.clear {s : Handoff} (h : Inv s) : Inv { s with progress := s.progress.clearClosure } :=
  { h with
    bounded := ⟨h.bounded.sequences,fun w hw => by cases hw⟩
    closure := fun _ w hw => by cases hw }

lemma Inv.store {s : Handoff} (h : Inv s) (hallowed : s.Allowed .open_) :
    Inv { s with admitting := true } :=
  { h with
    drained := fun ha => by cases ha
    closure := fun ha => by cases ha
    closed := fun c hc hq => absurd (hallowed c hc) hq }

lemma inv_step {s t : Handoff} {a : Act} (h : Inv s) (hallowed : s.Allowed a) (hst : Step s a t) :
    Inv t := by
  cases hst with
  | count hn => exact { h with inFlight := by have := h.inFlight; dsimp only; omega }
  | enter hn hopen => exact h.enter hn hopen
  | giveBack hn hclosed => exact { h with inFlight := by have := h.inFlight; dsimp only; omega }
  | finish hm => exact h.finish hm
  | shut => exact h.shut hallowed
  | call quiesce => exact h.call hallowed quiesce
  | drain hc hzero => exact h.drain hc hzero
  | lock hc => exact h.lock hc
  | wait hc hzero => exact h.goOn _ hc (by simp) (by simp)
  | find hc hreceipt => exact h.goOn _ hc (by simp) (by simp)
  | approve hc hafter => exact h.approve hc hafter
  | accept hc => exact h.accept hc
  | handOver hc => exact h.handOver hc
  | @drop c before after hc =>
    refine h.sublist _ fun c' hm => ?_
    rw [hc]
    simp only [List.mem_append,List.mem_cons] at hm ⊢
    tauto
  | shutDown => exact { h with handedOver := fun id hid => ⟨rfl,(h.handedOver id hid).2⟩ }
  | store hn => exact { h.store hallowed with }
  | clear hn => exact { h.clear with }
  | record id => exact h.record id _
  | restore hids => exact { h.restore _ with }
  | _ => exact { h with }

lemma inv_of_guarded {catalog : List String} {s : Handoff} (h : GuardedSteps (boot catalog) s) : Inv s := by
  induction h with
  | refl => exact inv_boot catalog
  | tail _ hst ih =>
    obtain ⟨a,hallowed,hst⟩ := hst
    exact inv_step ih hallowed hst

/-- In a run whose steps meet the condition, the ownership row accepts an id only while admission is
closed, after every mutation ever admitted had finished before its receipt was recorded and with none
admitted since; and after the handover none is ever admitted. -/
theorem quiesce_fenced {catalog : List String} {s : Handoff} (h : GuardedSteps (boot catalog) s) :
    (∀ before after id admitting, s.history = before ++ .accepted id admitting::after →
      admitting = false ∧ Fenced before id) ∧
    ∀ id ∈ s.handedOver, s.admits = false ∧ Fenced s.history id := by
  have hinv := inv_of_guarded h
  refine ⟨hinv.accepted,fun id hid => ?_⟩
  obtain ⟨hdown,hfenced⟩ := hinv.handedOver id hid
  exact ⟨by simp [admits,hdown],hfenced⟩

lemma GuardedSteps.other {s t u : Handoff} (h : GuardedSteps s t) (hst : Step t .other u) :
    GuardedSteps s u := h.tail ⟨.other,trivial,hst⟩

lemma GuardedSteps.close {s t u : Handoff} (h : GuardedSteps s t) (hallowed : t.Allowed .close)
    (hst : Step t .close u) : GuardedSteps s u := h.tail ⟨.close,hallowed,hst⟩

lemma GuardedSteps.steps {s t : Handoff} (h : GuardedSteps s t) : Steps s t := by
  induction h with
  | refl => exact .refl
  | tail _ hst ih => exact ih.tail (hst.imp fun _ h => h.2)

/-- A mutation has come and gone, admission is closed, and a receipt was recorded behind the closure. -/
def sampleClosed : Handoff :=
  { boot [] with
    admitting := false
    nextPermit := 1
    progress := ⟨1,AssocMap.empty.insert "fence" 1,some 0⟩
    receipts := ["fence"]
    catalog := ["fence"]
    history := [.admitted 0,.finished 0,.recorded "fence"] }

/-- A quiesce call has looked at everything and goes to the ownership row. -/
def sampleApproved : Handoff := { sampleClosed with calls := [⟨some "fence",.approved⟩] }

lemma sampleApproved_run : GuardedSteps (boot []) sampleApproved := by
  have hclose : ∀ s : Handoff, s.progress.closureWatermark = none → s.calls = [] →
      s.Allowed .close := by
    intro s hw hc _
    simp [hw,hc]
  have hadmitted := (GuardedSteps.other .refl (.check (boot []) rfl)).other (.count _ rfl)
    |>.other (.enter _ rfl rfl) |>.other (@Step.finish _ 0 [] [] rfl)
  have hclosed := (hadmitted.close (hclose _ rfl rfl) (.call _ none))
    |>.other (@Step.drain _ none true [] [] rfl rfl) |>.other (@Step.lock _ none true [] [] rfl)
  have hrecorded := (hclosed.other (.record _ "fence")).other (@Step.land _ "fence" [] [] rfl)
    |>.other (@Step.publish _ "fence" [] [] rfl)
  have hfenced := (hrecorded.close (fun h => by cases h) (.call _ (some "fence")))
    |>.other (@Step.drain _ (some "fence") false [] [] rfl rfl)
    |>.other (@Step.lock _ (some "fence") false [] [] rfl)
  exact (hfenced.other (@Step.wait _ (some "fence") [] [] rfl rfl)).other
    (@Step.find _ "fence" [] [] rfl (.head _)) |>.other (@Step.approve _ "fence" [] [] rfl rfl)

/-- The quiesce call hands the state over. -/
def sampleHandedOver : Handoff :=
  { sampleClosed with
    shutdown := true
    handedOver := ["fence"]
    history := [.admitted 0,.finished 0,.recorded "fence",.accepted "fence" false] }

theorem sample_quiesce_fenced : sampleHandedOver.admits = false ∧
    Fenced sampleHandedOver.history "fence" ∧ Fenced [.admitted 0,.finished 0,.recorded "fence"] "fence" := by
  have hrun : GuardedSteps (boot []) sampleHandedOver :=
    (sampleApproved_run.other (@Step.accept _ "fence" [] [] rfl)).other
      (@Step.handOver _ "fence" [] [] rfl)
  obtain ⟨haccepted,hhanded⟩ := quiesce_fenced hrun
  obtain ⟨hclosed,hfenced⟩ := hhanded "fence" (.head _)
  exact ⟨hclosed,hfenced,(haccepted _ [] "fence" false rfl).2⟩

/-- Admission is opened while the quiesce call waits for the ownership row, and a mutation admitted. -/
theorem sample_slips_past : ¬∀ (catalog : List String) (s : Handoff), Steps (boot catalog) s →
    ∀ before after id admitting, s.history = before ++ .accepted id admitting::after →
      admitting = false ∧ Fenced before id := by
  intro h
  have hopened : Steps (boot []) { sampleApproved with clearing := 1, admitting := true } :=
    (sampleApproved_run.steps.tail ⟨_,.opens _ rfl⟩).tail ⟨_,.store _ rfl⟩
  have hadmitted := hopened.tail ⟨_,.check _ rfl⟩ |>.tail ⟨_,.count _ rfl⟩ |>.tail ⟨_,.enter _ rfl rfl⟩
  have haccepted := hadmitted.tail ⟨_,@Step.accept _ "fence" [] [] rfl⟩
  exact absurd (h [] _ haccepted _ [] "fence" true rfl).1 (by simp)

end Handoff
end ElectricCircuits
