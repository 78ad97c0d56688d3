import Mathlib.Data.List.Nodup
import Mathlib.Logic.Relation

/-! The catalog writer: tasks number their events and queue them, one writer appends the queue to the
log and publishes the number that it landed last, and barriers wait for that number. -/
namespace ElectricCircuits

/-- An event in the writer's queue, and whether a `send_durable` waits for its answer. -/
structure CatalogSend (E : Type*) where
  ev : E
  seq : ℕ
  done : Bool
  deriving DecidableEq

/-- Where the writer's loop is. -/
inductive WriterPhase (E : Type*) where
  | idle
  | appending (m : CatalogSend E)
  | landed (m : CatalogSend E)
  | published (m : CatalogSend E)

/-- A `wait_durable` call: the sends completed before it, and the number that it waits for. -/
structure DurableWait (E : Type*) where
  id : ℕ
  before : List (CatalogSend E)
  target : ℕ
  deriving DecidableEq

/-- The catalog writer and its callers. The log keeps what an append stored, copies of a retry
included; `sent` lists the completed sends, `durables` the `send_durable` calls with the sends
completed before each, and `answered` the events whose waiter was told. -/
structure CatalogWriter (E : Type*) where
  nextEid : ℕ
  taken : List (CatalogSend E)
  queue : List (CatalogSend E)
  writer : WriterPhase E
  landedSeq : ℕ
  log : List (CatalogSend E)
  sent : List (CatalogSend E)
  answered : List (CatalogSend E)
  durables : List (CatalogSend E × List (CatalogSend E))
  waits : List (DurableWait E)
  returned : List (DurableWait E)

namespace WriterPhase
variable {E : Type*}

/-- The event that the writer holds and has not published. -/
def held : WriterPhase E → List (CatalogSend E)
  | .appending m => [m]
  | .landed m => [m]
  | _ => []

end WriterPhase

namespace CatalogWriter
variable {E : Type*}

def spawn : CatalogWriter E := ⟨1,[],[],.idle,0,[],[],[],[],[],[]⟩

/-- `enqueue` takes its number first. -/
def number (s : CatalogWriter E) (ev : E) (done : Bool) : CatalogWriter E :=
  let m := ⟨ev,s.nextEid,done⟩
  { s with
    nextEid := s.nextEid+1
    taken := s.taken ++ [m]
    durables := if done then s.durables ++ [(m,s.sent)] else s.durables }

/-- The numbered event enters the queue, and its send is complete. -/
def enqueue (s : CatalogWriter E) (m : CatalogSend E) : CatalogWriter E :=
  { s with
    taken := s.taken.filter (·.seq ≠ m.seq)
    queue := s.queue ++ [m]
    sent := s.sent ++ [m] }

/-- The writer takes the head of the queue. -/
def receive (s : CatalogWriter E) (m : CatalogSend E) (q : List (CatalogSend E)) : CatalogWriter E :=
  { s with writer := .appending m, queue := q }

/-- The append is stored, but its answer does not come back. -/
def answerLost (s : CatalogWriter E) (m : CatalogSend E) : CatalogWriter E :=
  { s with log := s.log ++ [m] }

def land (s : CatalogWriter E) (m : CatalogSend E) : CatalogWriter E :=
  { s with log := s.log ++ [m], writer := .landed m }

/-- The number of what landed last. -/
def publish (s : CatalogWriter E) (m : CatalogSend E) : CatalogWriter E :=
  { s with landedSeq := m.seq, writer := .published m }

/-- A waiting `send_durable` is told. -/
def answer (s : CatalogWriter E) (m : CatalogSend E) : CatalogWriter E :=
  { s with answered := if m.done then s.answered ++ [m] else s.answered, writer := .idle }

/-- `wait_durable` reads the number given out last. -/
def waitDurable (s : CatalogWriter E) (id : ℕ) : CatalogWriter E :=
  { s with waits := s.waits ++ [⟨id,s.sent,s.nextEid-1⟩] }

def waitReturns (s : CatalogWriter E) (w : DurableWait E) : CatalogWriter E :=
  { s with returned := s.returned ++ [w] }

/-- `number` and `enqueue` in one critical section. -/
def send (s : CatalogWriter E) (ev : E) (done : Bool) : CatalogWriter E :=
  (s.number ev done).enqueue ⟨ev,s.nextEid,done⟩

/-- One atomic action of a task or of the writer. An append whose answer is lost is made again; one
that stores nothing changes nothing, and neither does a check of a barrier that goes on waiting. -/
inductive Step : CatalogWriter E → CatalogWriter E → Prop where
  | number (s : CatalogWriter E) (ev : E) (done : Bool) : Step s (s.number ev done)
  | enqueue (s : CatalogWriter E) {m : CatalogSend E} (hm : m ∈ s.taken) : Step s (s.enqueue m)
  | receive (s : CatalogWriter E) {m : CatalogSend E} {q : List (CatalogSend E)}
    (hw : s.writer = .idle) (hq : s.queue = m::q) : Step s (s.receive m q)
  | answerLost (s : CatalogWriter E) {m : CatalogSend E} (hw : s.writer = .appending m) :
    Step s (s.answerLost m)
  | land (s : CatalogWriter E) {m : CatalogSend E} (hw : s.writer = .appending m) : Step s (s.land m)
  | publish (s : CatalogWriter E) {m : CatalogSend E} (hw : s.writer = .landed m) :
    Step s (s.publish m)
  | answer (s : CatalogWriter E) {m : CatalogSend E} (hw : s.writer = .published m) :
    Step s (s.answer m)
  | wait (s : CatalogWriter E) {id : ℕ} (hid : ∀ w ∈ s.waits, w.id ≠ id) : Step s (s.waitDurable id)
  | waitReturns (s : CatalogWriter E) {w : DurableWait E} (hw : w ∈ s.waits)
    (hl : w.target ≤ s.landedSeq) : Step s (s.waitReturns w)

abbrev Steps : CatalogWriter E → CatalogWriter E → Prop := Relation.ReflTransGen Step

def Reachable (s : CatalogWriter E) : Prop := Steps spawn s

/-- The events sent and not published, in the order in which they will be. -/
def line (s : CatalogWriter E) : List (CatalogSend E) := s.writer.held ++ s.queue

lemma line_enqueue (s : CatalogWriter E) (m : CatalogSend E) : (s.enqueue m).line = s.line ++ [m] :=
  (List.append_assoc _ _ _).symm

lemma line_receive {s : CatalogWriter E} {m : CatalogSend E} {q : List (CatalogSend E)}
    (hw : s.writer = .idle) (hq : s.queue = m::q) : (s.receive m q).line = s.line := by
  rw [line,line,hw,hq]
  rfl

lemma line_land {s : CatalogWriter E} {m : CatalogSend E} (hw : s.writer = .appending m) :
    (s.land m).line = s.line := by
  rw [line,line,hw]
  rfl

lemma line_publish {s : CatalogWriter E} {m : CatalogSend E} (hw : s.writer = .landed m) :
    s.line = m::(s.publish m).line := by
  rw [line,hw]
  rfl

lemma line_answer {s : CatalogWriter E} {m : CatalogSend E} (hw : s.writer = .published m) :
    (s.answer m).line = s.line := by
  rw [line,line,hw]
  rfl

lemma mem_answer {s : CatalogWriter E} {m e : CatalogSend E} (he : e ∈ (s.answer m).answered) :
    e ∈ s.answered ∨ e = m := by
  simp only [answer] at he
  split_ifs at he
  · simpa using he
  · exact .inl he

/-- Behind an event that no barrier for `target` may stop at, there are only events that are stored
or that the barrier does not cover. -/
structure Guarded (s : CatalogWriter E) (before : List (CatalogSend E)) (target : ℕ) : Prop where
  landed : ∀ y ∈ s.line, y ∈ before → y ∈ s.log ∨ s.landedSeq < target
  queued : s.line.Pairwise fun x y => y ∈ before → y ∈ s.log ∨ x.seq < target

/-- Neither the number landed last nor one ahead of an event that is not stored is the number given
out last. -/
def Clear (s : CatalogWriter E) : Prop :=
  (∀ y ∈ s.line, y ∈ s.log ∨ s.landedSeq < s.nextEid-1) ∧
    s.line.Pairwise fun x y => y ∈ s.log ∨ x.seq < s.nextEid-1

/-- What holds of the writer at any time: sends complete in the order of the queue, what is no longer
in the line is stored, and a durable call's event is behind all that was sent before the call. -/
structure Inv (s : CatalogWriter E) : Prop where
  order : ∃ past, s.sent = past ++ s.line ∧ (∀ m ∈ past, m ∈ s.log) ∧ (∀ m ∈ s.answered, m ∈ past) ∧
    ∀ m, s.writer = .published m → m ∈ past
  landed : ∀ m, s.writer = .landed m → m ∈ s.log
  nodup : ((s.sent ++ s.taken).map (·.seq)).Nodup
  below : ∀ m ∈ s.sent ++ s.taken, m.seq < s.nextEid
  durables : ∀ c ∈ s.durables, c.2 <+: s.sent ∧
    (c.1 ∈ s.taken ∨ ∃ mid rest, s.sent = c.2 ++ mid ++ c.1::rest)

lemma inv_spawn : Inv (spawn : CatalogWriter E) where
  order := ⟨[],rfl,by simp,by simp [spawn],by simp [spawn]⟩
  landed := by simp [spawn]
  nodup := by simp [spawn]
  below := by simp [spawn]
  durables := by simp [spawn]

lemma Inv.number {s : CatalogWriter E} (h : Inv s) (ev : E) (done : Bool) : Inv (s.number ev done) where
  order := h.order
  landed := h.landed
  nodup := by
    have hfresh : s.nextEid ∉ (s.sent ++ s.taken).map (·.seq) := by
      rw [List.mem_map]
      rintro ⟨m,hm,he⟩
      exact absurd (h.below m hm) (by omega)
    simp only [CatalogWriter.number]
    rw [← List.append_assoc,List.map_append,List.map_singleton,← List.concat_eq_append,
      List.nodup_concat]
    exact ⟨hfresh,h.nodup⟩
  below := by
    intro m hm
    simp only [CatalogWriter.number] at hm ⊢
    rw [← List.append_assoc,List.mem_append,List.mem_singleton] at hm
    rcases hm with hm | rfl
    · exact Nat.lt_succ_of_lt (h.below m hm)
    · exact Nat.lt_succ_self _
  durables := by
    have hold : ∀ c ∈ s.durables, c.2 <+: s.sent ∧
        (c.1 ∈ s.taken ++ [⟨ev,s.nextEid,done⟩] ∨ ∃ mid rest, s.sent = c.2 ++ mid ++ c.1::rest) := by
      intro c hc
      obtain ⟨hp,hm⟩ := h.durables c hc
      exact ⟨hp,hm.imp (List.mem_append_left _) id⟩
    intro c hc
    simp only [CatalogWriter.number] at hc ⊢
    split_ifs at hc
    · rcases List.mem_append.mp hc with hc | hc
      · exact hold c hc
      · obtain rfl := List.mem_singleton.mp hc
        exact ⟨List.prefix_refl _,.inl (by simp)⟩
    · exact hold c hc

lemma Inv.enqueue {s : CatalogWriter E} (h : Inv s) {m : CatalogSend E} (hm : m ∈ s.taken) :
    Inv (s.enqueue m) where
  order := by
    obtain ⟨past,hsent,hlog,hans,hpub⟩ := h.order
    refine ⟨past,?_,hlog,hans,hpub⟩
    simp only [CatalogWriter.enqueue,line]
    rw [hsent,line]
    simp
  landed := h.landed
  nodup := by
    have hnodup := h.nodup
    rw [List.map_append,List.nodup_append] at hnodup
    obtain ⟨hsent,htaken,hapart⟩ := hnodup
    have hrest : ((s.taken.filter (·.seq ≠ m.seq)).map (·.seq)).Sublist (s.taken.map (·.seq)) :=
      List.filter_sublist.map _
    simp only [CatalogWriter.enqueue]
    rw [List.append_assoc,List.map_append,List.nodup_append]
    refine ⟨hsent,?_,?_⟩
    · rw [List.map_append,List.map_singleton,List.singleton_append,List.nodup_cons]
      refine ⟨?_,htaken.sublist hrest⟩
      simp
    · intro a ha b hb
      rw [List.map_append,List.map_singleton,List.singleton_append,List.mem_cons] at hb
      rcases hb with rfl | hb
      · exact hapart a ha _ (List.mem_map_of_mem hm)
      · exact hapart a ha b (hrest.subset hb)
  below := by
    intro e he
    simp only [CatalogWriter.enqueue,List.mem_append,List.mem_singleton,List.mem_filter] at he
    rcases he with (he | rfl) | he
    · exact h.below e (List.mem_append_left _ he)
    · exact h.below e (List.mem_append_right _ hm)
    · exact h.below e (List.mem_append_right _ he.1)
  durables := by
    intro c hc
    obtain ⟨hp,hc'⟩ := h.durables c hc
    refine ⟨hp.trans (List.prefix_append _ _),?_⟩
    simp only [CatalogWriter.enqueue]
    rcases hc' with hc' | ⟨mid,rest,hs⟩
    · by_cases he : c.1.seq = m.seq
      · have htaken := (List.nodup_append.mp (List.map_append ▸ h.nodup)).2.1
        have hcm : c.1 = m := List.inj_on_of_nodup_map htaken hc' hm he
        obtain ⟨mid,hmid⟩ := hp
        exact .inr ⟨mid,[],by rw [← hmid,hcm]⟩
      · exact .inl (List.mem_filter.mpr ⟨hc',by simpa using he⟩)
    · exact .inr ⟨mid,rest ++ [m],by rw [hs]; simp⟩

/-- An invariant of the writer that its own actions keep: they move along the line. -/
lemma Inv.advance {s t : CatalogWriter E} (h : Inv s) (hsent : t.sent = s.sent)
    (htaken : t.taken = s.taken) (hnext : t.nextEid = s.nextEid) (hdur : t.durables = s.durables)
    (horder : ∃ past, s.sent = past ++ t.line ∧ (∀ m ∈ past, m ∈ t.log) ∧
      (∀ m ∈ t.answered, m ∈ past) ∧ ∀ m, t.writer = .published m → m ∈ past)
    (hlanded : ∀ m, t.writer = .landed m → m ∈ t.log) : Inv t where
  order := by rwa [hsent]
  landed := hlanded
  nodup := by rw [hsent,htaken]; exact h.nodup
  below := by rw [hsent,htaken,hnext]; exact h.below
  durables := by rw [hsent,htaken,hdur]; exact h.durables

theorem inv_step {s t : CatalogWriter E} (h : Inv s) (hst : Step s t) : Inv t := by
  obtain ⟨past,hsent,hlog,hans,hpub⟩ := h.order
  cases hst with
  | number ev done => exact h.number ev done
  | enqueue hm => exact h.enqueue hm
  | receive hw hq =>
    refine h.advance rfl rfl rfl rfl ⟨past,?_,hlog,hans,fun _ he => by cases he⟩ fun _ he => by cases he
    rwa [line_receive hw hq]
  | answerLost hw =>
    refine h.advance rfl rfl rfl rfl ⟨past,hsent,?_,hans,hpub⟩ fun m hm => ?_
    · exact fun m hm => List.mem_append_left _ (hlog m hm)
    · exact List.mem_append_left _ (h.landed m hm)
  | land hw =>
    refine h.advance rfl rfl rfl rfl ⟨past,?_,?_,hans,fun _ he => by cases he⟩ fun m hm => ?_
    · rwa [line_land hw]
    · exact fun m hm => List.mem_append_left _ (hlog m hm)
    · cases hm
      exact List.mem_append_right _ (.head _)
  | @publish m hw =>
    refine h.advance rfl rfl rfl rfl ⟨past ++ [m],?_,?_,?_,fun e he => ?_⟩ fun _ he => by cases he
    · rw [hsent,line_publish hw,List.append_assoc,List.singleton_append]
    · intro e he
      rcases List.mem_append.mp he with he | he
      · exact hlog e he
      · exact List.mem_singleton.mp he ▸ h.landed m hw
    · exact fun e he => List.mem_append_left _ (hans e he)
    · cases he
      exact List.mem_append_right _ (.head _)
  | @answer m hw =>
    refine h.advance rfl rfl rfl rfl ⟨past,?_,hlog,?_,fun _ he => by cases he⟩ fun _ he => by cases he
    · rwa [line_answer hw]
    · intro e he
      rcases mem_answer he with he | rfl
      · exact hans e he
      · exact hpub e hw
  | wait hid => exact ⟨h.order,h.landed,h.nodup,h.below,h.durables⟩
  | waitReturns hw hl => exact ⟨h.order,h.landed,h.nodup,h.below,h.durables⟩

theorem inv_of_reachable {s : CatalogWriter E} (h : Reachable s) : Inv s := by
  induction h with
  | refl => exact inv_spawn
  | tail _ hst ih => exact inv_step ih hst

/-- The log stores each event of a list, in this order, and some of them several times in a row. -/
inductive Repeats : List (CatalogSend E) → List (CatalogSend E) → Prop where
  | nil : Repeats [] []
  | store {past log : List (CatalogSend E)} (h : Repeats past log) (m : CatalogSend E) :
    Repeats (past ++ [m]) (log ++ [m])
  | again {past log : List (CatalogSend E)} {m : CatalogSend E} (h : Repeats (past ++ [m]) log) :
    Repeats (past ++ [m]) (log ++ [m])

/-- The log holds what is no longer in the line, and perhaps the event that the writer has in hand. -/
def Stored (s : CatalogWriter E) : Prop :=
  ∃ past, s.sent = past ++ s.line ∧
    match s.writer with
    | .appending m => Repeats past s.log ∨ Repeats (past ++ [m]) s.log
    | .landed m => Repeats (past ++ [m]) s.log
    | _ => Repeats past s.log

lemma Stored.step {s t : CatalogWriter E} (h : s.Stored) (hst : Step s t) : t.Stored := by
  obtain ⟨past,hsent,hlog⟩ := h
  cases hst with
  | number ev done => exact ⟨past,hsent,hlog⟩
  | enqueue hm =>
    refine ⟨past,?_,hlog⟩
    rw [line_enqueue,← List.append_assoc,← hsent]
    rfl
  | receive hw hq =>
    rw [hw] at hlog
    exact ⟨past,(line_receive hw hq).symm ▸ hsent,.inl hlog⟩
  | answerLost hw =>
    rw [hw] at hlog
    refine ⟨past,hsent,?_⟩
    simp only [answerLost,hw]
    exact .inr (hlog.elim (fun h => h.store _) fun h => h.again)
  | land hw =>
    rw [hw] at hlog
    exact ⟨past,(line_land hw).symm ▸ hsent,hlog.elim (fun h => h.store _) fun h => h.again⟩
  | @publish m hw =>
    rw [hw] at hlog
    exact ⟨past ++ [m],by rw [List.append_assoc,List.singleton_append,← line_publish hw]; exact hsent,hlog⟩
  | answer hw =>
    rw [hw] at hlog
    exact ⟨past,(line_answer hw).symm ▸ hsent,hlog⟩
  | wait hid => exact ⟨past,hsent,hlog⟩
  | waitReturns hw hl => exact ⟨past,hsent,hlog⟩

theorem stored_of_reachable {s : CatalogWriter E} (h : Reachable s) : s.Stored := by
  induction h with
  | refl => exact ⟨[],rfl,.nil⟩
  | tail _ hst ih => exact ih.step hst

/-- Where nothing is in the line, the log repeats what was sent. -/
lemma Stored.repeats {s : CatalogWriter E} (h : s.Stored) (hline : s.line = []) :
    Repeats s.sent s.log := by
  obtain ⟨past,hsent,hlog⟩ := h
  rw [hline,List.append_nil] at hsent
  rw [line,List.append_eq_nil_iff] at hline
  cases hw : s.writer <;> simp only [hw,WriterPhase.held] at hline hlog
  · rwa [hsent]
  · cases hline.1
  · cases hline.1
  · rwa [hsent]

lemma Repeats.mem_iff {past log : List (CatalogSend E)} (h : Repeats past log) (m : CatalogSend E) :
    m ∈ log ↔ m ∈ past := by
  induction h with
  | nil => rfl
  | store h m' ih => rw [List.mem_append,List.mem_append,ih]
  | again h ih =>
    rw [List.mem_append,ih,List.mem_append]
    tauto

/-- What was sent is repeated in the log up to some place, and behind it in the line. -/
lemma Stored.split {s : CatalogWriter E} (h : s.Stored) :
    ∃ past rest, s.sent = past ++ rest ∧ Repeats past s.log ∧ ∀ m ∈ rest, m ∈ s.line := by
  obtain ⟨past,hsent,hlog⟩ := h
  have hhead : ∀ m, s.writer.held = [m] → Repeats (past ++ [m]) s.log →
      ∃ past rest, s.sent = past ++ rest ∧ Repeats past s.log ∧ ∀ m ∈ rest, m ∈ s.line := by
    intro m hm h
    refine ⟨past ++ [m],s.queue,?_,h,fun m' hm' => List.mem_append_right _ hm'⟩
    rw [hsent,line,hm,List.append_assoc]
  cases hw : s.writer with
  | idle => exact ⟨past,s.line,hsent,by rwa [hw] at hlog,fun m hm => hm⟩
  | appending m =>
    rw [hw] at hlog
    rcases hlog with h | h
    · exact ⟨past,s.line,hsent,h,fun m hm => hm⟩
    · exact hhead m (by rw [hw]; rfl) h
  | landed m =>
    rw [hw] at hlog
    exact hhead m (by rw [hw]; rfl) hlog
  | published m => exact ⟨past,s.line,hsent,by rwa [hw] at hlog,fun m hm => hm⟩

lemma Reachable.send {s : CatalogWriter E} (h : s.Reachable) (ev : E) (done : Bool) :
    (s.send ev done).Reachable :=
  (h.tail (.number s ev done)).tail (.enqueue _ (by simp [number]))

lemma sent_send (s : CatalogWriter E) (ev : E) (done : Bool) :
    (s.send ev done).sent = s.sent ++ [⟨ev,s.nextEid,done⟩] := rfl

/-- A durable call that was answered finds its event stored, and all that was sent before it. -/
theorem Inv.durable_stored {s : CatalogWriter E} (h : Inv s)
    {c : CatalogSend E × List (CatalogSend E)} (hc : c ∈ s.durables) (ha : c.1 ∈ s.answered) :
    ∀ m ∈ c.1::c.2, m ∈ s.log := by
  obtain ⟨past,hsent,hlog,hans,-⟩ := h.order
  obtain ⟨hpre,hplace⟩ := h.durables c hc
  have hpast := hans _ ha
  have hnodup : (s.sent.map (·.seq)).Nodup := h.nodup.sublist
    ((List.sublist_append_left _ _).map _)
  suffices hbefore : ∀ m ∈ c.2, m ∈ past by
    intro m hm
    rcases List.mem_cons.mp hm with rfl | hm
    · exact hlog _ hpast
    · exact hlog m (hbefore m hm)
  rcases hplace with htaken | ⟨mid,rest,hs⟩
  · -- an event that is numbered and not queued has not been answered
    have hin : c.1 ∈ s.sent := by rw [hsent]; exact List.mem_append_left _ hpast
    have hapart := (List.nodup_append.mp (List.map_append ▸ h.nodup)).2.2
    exact absurd rfl (hapart _ (List.mem_map_of_mem hin) _ (List.mem_map_of_mem htaken))
  · intro m hm
    rw [hs] at hsent
    rcases List.append_eq_append_iff.mp hsent with ⟨as,hp,-⟩ | ⟨bs,hp,hline⟩
    · rw [hp]
      exact List.mem_append_left _ (List.mem_append_left _ hm)
    · -- the event would be both past and in the line
      rw [hs,hp,List.append_assoc,List.map_append,List.nodup_append] at hnodup
      exact absurd rfl (hnodup.2.2 _ (List.mem_map_of_mem hpast) _
        (List.mem_map_of_mem (List.mem_append_right _ (.head _))))

lemma Guarded.mono {s t : CatalogWriter E} {before : List (CatalogSend E)} {target : ℕ}
    (h : Guarded s before target) (hline : t.line = s.line) (hlog : ∀ m ∈ s.log, m ∈ t.log)
    (hl : t.landedSeq = s.landedSeq) : Guarded t before target where
  landed := by
    rw [hline,hl]
    exact fun y hy hb => (h.landed y hy hb).imp (hlog y) id
  queued := by
    rw [hline]
    exact h.queued.imp fun hxy hb => (hxy hb).imp (hlog _) id

/-- What a barrier waits for stays ahead of what it may stop at. -/
lemma Guarded.step {s t : CatalogWriter E} (hinv : Inv s) {before : List (CatalogSend E)} {target : ℕ}
    (hbefore : ∀ m ∈ before, m ∈ s.sent) (h : Guarded s before target) (hst : Step s t) :
    Guarded t before target := by
  cases hst with
  | number ev done => exact h.mono rfl (fun _ hm => hm) rfl
  | @enqueue m hm =>
    have hnew : m ∉ before := by
      intro hb
      have hapart := (List.nodup_append.mp (List.map_append ▸ hinv.nodup)).2.2
      exact hapart _ (List.mem_map_of_mem (hbefore m hb)) _ (List.mem_map_of_mem hm) rfl
    refine ⟨?_,?_⟩
    · intro y hy hb
      rw [line_enqueue,List.mem_append,List.mem_singleton] at hy
      rcases hy with hy | rfl
      · exact h.landed y hy hb
      · exact absurd hb hnew
    · rw [line_enqueue,List.pairwise_append]
      refine ⟨h.queued,List.pairwise_singleton _ _,fun x _ y hy hb => ?_⟩
      obtain rfl := List.mem_singleton.mp hy
      exact absurd hb hnew
  | receive hw hq => exact h.mono (line_receive hw hq) (fun _ hm => hm) rfl
  | answerLost hw => exact h.mono rfl (fun m hm => List.mem_append_left _ hm) rfl
  | land hw =>
    exact h.mono (line_land hw) (fun m hm => List.mem_append_left _ hm) rfl
  | @publish m hw =>
    have hq := h.queued
    rw [line_publish hw,List.pairwise_cons] at hq
    exact ⟨hq.1,hq.2⟩
  | answer hw => exact h.mono (line_answer hw) (fun _ hm => hm) rfl
  | wait hid => exact h.mono rfl (fun _ hm => hm) rfl
  | waitReturns hw hl => exact h.mono rfl (fun _ hm => hm) rfl

/-- A barrier that returns under the guard finds all that it covers stored. -/
lemma Guarded.stored {s : CatalogWriter E} (hinv : Inv s) {before : List (CatalogSend E)} {target : ℕ}
    (hbefore : ∀ m ∈ before, m ∈ s.sent) (h : Guarded s before target) (hl : target ≤ s.landedSeq) :
    ∀ m ∈ before, m ∈ s.log := by
  obtain ⟨past,hsent,hlog,-⟩ := hinv.order
  intro m hm
  have hmem := hbefore m hm
  rw [hsent,List.mem_append] at hmem
  rcases hmem with hpast | hline
  · exact hlog m hpast
  · exact (h.landed m hline hm).resolve_right (by omega)

lemma sent_mono {s t : CatalogWriter E} (hst : Step s t) : ∀ m ∈ s.sent, m ∈ t.sent := by
  cases hst with
  | enqueue hm => exact fun m h => List.mem_append_left _ h
  | _ => exact fun m h => h

lemma log_mono {s t : CatalogWriter E} (hst : Step s t) : ∀ m ∈ s.log, m ∈ t.log := by
  cases hst with
  | answerLost hw => exact fun m h => List.mem_append_left _ h
  | land hw => exact fun m h => List.mem_append_left _ h
  | _ => exact fun m h => h

/-- The barrier call `w` in a run: it is the only one of its name, its guard holds, and where it has
returned all that it covers is stored. -/
structure Covered (s : CatalogWriter E) (w : DurableWait E) : Prop where
  called : w ∈ s.waits
  only : ∀ v ∈ s.waits, v.id = w.id → v = w
  covers : ∀ m ∈ w.before, m ∈ s.sent
  guarded : Guarded s w.before w.target
  returned : ∀ v ∈ s.returned, v.id = w.id → ∀ m ∈ w.before, m ∈ s.log

lemma Covered.step {s t : CatalogWriter E} (hinv : Inv s) {w : DurableWait E} (h : Covered s w)
    (hst : Step s t) : Covered t w := by
  have hguarded := h.guarded.step hinv h.covers hst
  have hcovers : ∀ m ∈ w.before, m ∈ t.sent := fun m hm => sent_mono hst m (h.covers m hm)
  have hreturned : ∀ v ∈ s.returned, v.id = w.id → ∀ m ∈ w.before, m ∈ t.log :=
    fun v hv he m hm => log_mono hst m (h.returned v hv he m hm)
  cases hst with
  | @wait id hid =>
    refine ⟨List.mem_append_left _ h.called,?_,hcovers,hguarded,hreturned⟩
    intro v hv he
    rcases List.mem_append.mp hv with hv | hv
    · exact h.only v hv he
    · obtain rfl := List.mem_singleton.mp hv
      exact absurd he.symm (hid w h.called)
  | @waitReturns v hv hl =>
    refine ⟨h.called,h.only,hcovers,hguarded,?_⟩
    intro u hu he
    rcases List.mem_append.mp hu with hu | hu
    · exact hreturned u hu he
    · obtain rfl := List.mem_singleton.mp hu
      obtain rfl := h.only u hv he
      exact h.guarded.stored hinv h.covers hl
  | _ => exact ⟨h.called,h.only,hcovers,hguarded,hreturned⟩

lemma Covered.steps {s t : CatalogWriter E} (hinv : Inv s) {w : DurableWait E} (h : Covered s w)
    (hst : Steps s t) : Covered t w := by
  have hboth : Inv t ∧ Covered t w := by
    induction hst with
    | refl => exact ⟨hinv,h⟩
    | tail _ hlast ih => exact ⟨inv_step ih.1 hlast,ih.2.step ih.1 hlast⟩
  exact hboth.2

/-- No barrier has this name yet. -/
def Fresh (s : CatalogWriter E) (id : ℕ) : Prop := ∀ w ∈ s.waits, w.id ≠ id

lemma returned_waits {s : CatalogWriter E} (h : Reachable s) : ∀ w ∈ s.returned, w ∈ s.waits := by
  induction h with
  | refl => simp [spawn]
  | tail _ hst ih =>
    cases hst with
    | wait hid => exact fun w hw => List.mem_append_left _ (ih w hw)
    | waitReturns hw hl =>
      intro v hv
      rcases List.mem_append.mp hv with hv | hv
      · exact ih v hv
      · exact List.mem_singleton.mp hv ▸ hw
    | _ => exact ih

lemma covered_wait {s : CatalogWriter E} (h : Reachable s) {id : ℕ} (hid : s.Fresh id)
    (hclear : s.Clear) : Covered (s.waitDurable id) ⟨id,s.sent,s.nextEid-1⟩ where
  called := List.mem_append_right _ (.head _)
  only := by
    intro v hv he
    rcases List.mem_append.mp hv with hv | hv
    · exact absurd he (hid v hv)
    · exact List.mem_singleton.mp hv
  covers := fun m hm => hm
  guarded :=
    have hqueued : s.line.Pairwise fun x y => y ∈ s.sent → y ∈ s.log ∨ x.seq < s.nextEid-1 :=
      hclear.2.imp fun {x y} hxy (_ : y ∈ s.sent) => hxy
    ⟨fun y hy _ => hclear.1 y hy,hqueued⟩
  returned := fun v hv he => absurd he (hid v (returned_waits h v hv))

/-- The writer can always publish the next event of the line, storing nothing else. -/
lemma publish_next {s : CatalogWriter E} {m : CatalogSend E} {rest : List (CatalogSend E)}
    (hline : s.line = m::rest) : ∃ t, Steps s t ∧ t.landedSeq = m.seq ∧ t.line = rest ∧
      t.waits = s.waits ∧ ∀ e ∈ t.log, e ∈ s.log ∨ e = m := by
  have hlanded : ∀ u : CatalogWriter E, ∀ n, u.writer = .landed n → u.line = m::rest →
      u.waits = s.waits → (∀ e ∈ u.log, e ∈ s.log ∨ e = m) → Steps s u → ∃ t, Steps s t ∧
        t.landedSeq = m.seq ∧ t.line = rest ∧ t.waits = s.waits ∧ ∀ e ∈ t.log, e ∈ s.log ∨ e = m := by
    intro u n hu hl hwaits hlog hsu
    rw [line_publish hu] at hl
    obtain ⟨rfl,hrest⟩ := List.cons.inj hl
    exact ⟨u.publish n,hsu.tail (.publish u hu),rfl,hrest,hwaits,hlog⟩
  have happending : ∀ u : CatalogWriter E, ∀ n, u.writer = .appending n → u.line = m::rest →
      u.waits = s.waits → u.log = s.log → Steps s u → ∃ t, Steps s t ∧ t.landedSeq = m.seq ∧
        t.line = rest ∧ t.waits = s.waits ∧ ∀ e ∈ t.log, e ∈ s.log ∨ e = m := by
    intro u n hu hl hwaits hlog hsu
    have hn : n = m := by
      rw [line,hu] at hl
      exact (List.cons.inj hl).1
    refine hlanded (u.land n) n rfl ((line_land hu).trans hl) hwaits ?_ (hsu.tail (.land u hu))
    intro e he
    rcases List.mem_append.mp he with he | he
    · exact .inl (hlog ▸ he)
    · exact .inr ((List.mem_singleton.mp he).trans hn)
  have hidle : ∀ u : CatalogWriter E, u.writer = .idle → u.line = m::rest →
      u.waits = s.waits → u.log = s.log → Steps s u → ∃ t, Steps s t ∧ t.landedSeq = m.seq ∧
        t.line = rest ∧ t.waits = s.waits ∧ ∀ e ∈ t.log, e ∈ s.log ∨ e = m := by
    intro u hu hl hwaits hlog hsu
    have hq : u.queue = m::rest := by rwa [line,hu] at hl
    exact happending (u.receive m rest) m rfl ((line_receive hu hq).trans hl) hwaits hlog
      (hsu.tail (.receive u hu hq))
  cases hw : s.writer with
  | idle => exact hidle s hw hline rfl rfl .refl
  | appending n => exact happending s n hw hline rfl rfl .refl
  | landed n => exact hlanded s n hw hline rfl (fun e he => .inl he) .refl
  | published n =>
    exact hidle (s.answer n) rfl ((line_answer hw).trans hline) rfl rfl (.single (.answer s hw))

/-- The writer can always publish an event of the line before it stores those behind it. -/
lemma publish_upto {s : CatalogWriter E} {xs : List (CatalogSend E)} {x : CatalogSend E}
    {ys : List (CatalogSend E)} (hline : s.line = xs ++ x::ys) : ∃ t, Steps s t ∧
      t.landedSeq = x.seq ∧ t.waits = s.waits ∧ ∀ e ∈ t.log, e ∈ s.log ∨ e ∈ xs ++ [x] := by
  induction xs generalizing s with
  | nil =>
    obtain ⟨t,hst,hl,-,hwaits,hlog⟩ := publish_next hline
    exact ⟨t,hst,hl,hwaits,fun e he => (hlog e he).imp id List.mem_singleton.mpr⟩
  | cons z zs ih =>
    obtain ⟨t,hst,-,hline,hwaits,hlog⟩ := publish_next hline
    obtain ⟨u,htu,hl,hwaits',hlog'⟩ := ih hline
    refine ⟨u,hst.trans htu,hl,hwaits'.trans hwaits,fun e he => ?_⟩
    rcases hlog' e he with h | h
    · exact (hlog e h).imp id fun h => List.mem_cons.mpr (.inl h)
    · exact .inr (.tail _ h)

lemma not_pairwise {α : Type*} {R : α → α → Prop} {l : List α} (h : ¬l.Pairwise R) :
    ∃ xs x ys y, l = xs ++ x::ys ∧ y ∈ ys ∧ ¬R x y := by
  induction l with
  | nil => exact absurd .nil h
  | cons a l ih =>
    rw [List.pairwise_cons,Classical.not_and_iff_not_or_not] at h
    rcases h with h | h
    · simp only [not_forall] at h
      obtain ⟨y,hy,hr⟩ := h
      exact ⟨[],a,l,y,rfl,hy,hr⟩
    · obtain ⟨xs,x,ys,y,rfl,hy,hr⟩ := ih h
      exact ⟨a::xs,x,ys,y,rfl,hy,hr⟩

/-- Where the state is not clear, the barrier may return before an event that it covers is stored. -/
lemma exists_early_return {s : CatalogWriter E} (hinv : Inv s) (id : ℕ) (hclear : ¬s.Clear) :
    ∃ t w, Steps (s.waitDurable id) t ∧ w ∈ t.returned ∧ w.id = id ∧ ∃ m ∈ s.sent, m ∉ t.log := by
  obtain ⟨past,hsent,-⟩ := hinv.order
  have hmem : ∀ y ∈ s.line, y ∈ s.sent := fun y hy => hsent ▸ List.mem_append_right _ hy
  have hcalled : ⟨id,s.sent,s.nextEid-1⟩ ∈ (s.waitDurable id).waits :=
    List.mem_append_right _ (.head _)
  rw [Clear,Classical.not_and_iff_not_or_not] at hclear
  rcases hclear with h | h
  · simp only [not_forall,not_or] at h
    obtain ⟨y,hy,hlog,hl⟩ := h
    exact ⟨_,_,.single (.waitReturns _ hcalled (Nat.not_lt.mp hl)),List.mem_append_right _ (.head _),rfl,y,
      hmem y hy,hlog⟩
  · obtain ⟨xs,x,ys,y,hline,hy,hr⟩ := not_pairwise h
    rw [not_or] at hr
    obtain ⟨t,hst,hl,hwaits,hlog⟩ := publish_upto (s := s.waitDurable id) hline
    have hmemLine : y ∈ s.line := by
      rw [hline]
      exact List.mem_append_right _ (.tail _ hy)
    refine ⟨_,_,hst.tail (.waitReturns t (hwaits ▸ hcalled) (hl ▸ Nat.not_lt.mp hr.2)),
      List.mem_append_right _ (.head _),rfl,y,hmem y hmemLine,?_⟩
    intro hyt
    -- the events up to `x` are other ones than `y`
    rcases hlog y hyt with h | h
    · exact hr.1 h
    · have hnodup := hinv.nodup.sublist ((List.sublist_append_left _ _).map _)
      rw [hsent,hline,← List.singleton_append,← List.append_assoc xs,← List.append_assoc,
        List.map_append,List.nodup_append] at hnodup
      exact hnodup.2.2 _ (List.mem_map_of_mem (List.mem_append_right _ h)) _ (List.mem_map_of_mem hy) rfl

/-- Where events land and queue in the order of their numbers, the state is clear. -/
theorem clear_of_sorted {s : CatalogWriter E} (hinv : Inv s)
    (h : (s.landedSeq :: s.line.map (·.seq)).Pairwise (· < ·)) : s.Clear := by
  obtain ⟨past,hsent,-⟩ := hinv.order
  have hbelow : ∀ y ∈ s.line, y.seq ≤ s.nextEid-1 := by
    intro y hy
    have hlt := hinv.below y (List.mem_append_left _ (hsent ▸ List.mem_append_right _ hy))
    omega
  rw [List.pairwise_cons,List.pairwise_map] at h
  refine ⟨fun y hy => .inr ?_,h.2.imp_of_mem fun _ hy hxy => .inr ?_⟩
  · exact Nat.lt_of_lt_of_le (h.1 _ (List.mem_map_of_mem hy)) (hbelow y hy)
  · exact Nat.lt_of_lt_of_le hxy (hbelow _ hy)

/-- The barriers are called only where the state is clear. -/
def ClearStep (s t : CatalogWriter E) : Prop := Step s t ∧ (s.Clear ∨ t.waits = s.waits)

lemma reachable_of_clear {s : CatalogWriter E} (h : Relation.ReflTransGen ClearStep spawn s) :
    Reachable s := by
  induction h with
  | refl => exact .refl
  | tail _ hst ih => exact ih.tail hst.1

lemma covered_of_clear {s : CatalogWriter E} (h : Relation.ReflTransGen ClearStep spawn s) :
    ∀ w ∈ s.waits, Covered s w := by
  induction h with
  | refl => simp [spawn]
  | @tail s t hs hst ih =>
    have hreach := reachable_of_clear hs
    have hinv := inv_of_reachable hreach
    have hold : ∀ w ∈ s.waits, Covered t w := fun w hw => (ih w hw).step hinv hst.1
    rcases hst with ⟨hst,hclear⟩
    cases hst with
    | @wait id hid =>
      rcases hclear with hclear | hsame
      · intro w hw
        rcases List.mem_append.mp hw with hw | hw
        · exact hold w hw
        · exact List.mem_singleton.mp hw ▸ covered_wait hreach hid hclear
      · simp [waitDurable] at hsame
    | number ev done => exact hold
    | _ => exact hold

/-- A durable call that was answered finds its event and all sent before it stored. A barrier that
returns finds all sent before it stored if, and only if, the state in which it reads its target is
clear; so in a run whose barriers are called in clear states every one that returned is sound. -/
theorem barrier_sound :
    (∀ s : CatalogWriter E, Reachable s → ∀ c ∈ s.durables, c.1 ∈ s.answered →
      ∀ m ∈ c.1::c.2, m ∈ s.log) ∧
    (∀ (s : CatalogWriter E) (id : ℕ), Reachable s → s.Fresh id →
      ((∀ t, Steps (s.waitDurable id) t → ∀ w ∈ t.returned, w.id = id → ∀ m ∈ s.sent, m ∈ t.log) ↔
        s.Clear)) ∧
    ∀ s : CatalogWriter E, Relation.ReflTransGen ClearStep spawn s →
      ∀ w ∈ s.returned, ∀ m ∈ w.before, m ∈ s.log := by
  refine ⟨?_,?_,?_⟩
  · intro s hs c hc ha
    exact (inv_of_reachable hs).durable_stored hc ha
  · intro s id hs hid
    constructor
    · intro h
      by_contra hclear
      obtain ⟨t,w,hst,hw,he,m,hm,hlog⟩ := exists_early_return (inv_of_reachable hs) id hclear
      exact hlog (h t hst w hw he m hm)
    · intro hclear t hst w hw he m hm
      have hcovered := (covered_wait hs hid hclear).steps
        (inv_of_reachable (hs.tail (.wait s hid))) hst
      exact hcovered.returned w hw he m hm
  · intro s hs w hw m hm
    have hcovered := covered_of_clear hs w (returned_waits (reachable_of_clear hs) w hw)
    exact hcovered.returned w hw rfl m hm

/-- A release and a checkpoint that queue in the other order than they took their numbers. -/
def sampleRaced : CatalogWriter String :=
  (((spawn.number "left" false).number "offset" false).enqueue ⟨"offset",2,false⟩).enqueue
    ⟨"left",1,false⟩

/-- One durable send, landed and answered. -/
def sampleLanded : CatalogWriter String :=
  (((((spawn.number "left" true).enqueue ⟨"left",1,true⟩).receive ⟨"left",1,true⟩ []).land
    ⟨"left",1,true⟩).publish ⟨"left",1,true⟩).answer ⟨"left",1,true⟩

lemma sampleLanded_clear : Relation.ReflTransGen ClearStep spawn sampleLanded := by
  refine Relation.ReflTransGen.refl.tail ⟨.number _ "left" true,.inr rfl⟩ |>.tail
    ⟨.enqueue _ (m := ⟨"left",1,true⟩) (by decide),.inr rfl⟩ |>.tail ⟨.receive _ rfl rfl,.inr rfl⟩
    |>.tail ⟨.land _ rfl,.inr rfl⟩ |>.tail ⟨.publish _ rfl,.inr rfl⟩ |>.tail ⟨.answer _ rfl,.inr rfl⟩

theorem sample_barrier_sound :
    (∀ m ∈ [(⟨"left",1,true⟩ : CatalogSend String)],m ∈ sampleLanded.log) ∧
    (∀ t, Steps (sampleLanded.waitDurable 7) t → ∀ w ∈ t.returned, w.id = 7 →
      ∀ m ∈ sampleLanded.sent, m ∈ t.log) ∧
    ∀ m ∈ sampleLanded.sent, m ∈ (sampleLanded.waitDurable 7 |>.waitReturns
      ⟨7,sampleLanded.sent,1⟩).log := by
  have hclear : sampleLanded.Clear := by
    unfold Clear
    decide
  have hreach := reachable_of_clear sampleLanded_clear
  refine ⟨?_,?_,?_⟩
  · exact barrier_sound.1 sampleLanded hreach (⟨"left",1,true⟩,[]) (by decide) (by decide)
  · exact (barrier_sound.2.1 sampleLanded 7 hreach (by simp [Fresh,sampleLanded,answer,publish,land,
      receive,enqueue,number,spawn])).mpr hclear
  · have hrun := (sampleLanded_clear.tail ⟨.wait _ (by decide : ∀ w ∈ sampleLanded.waits, w.id ≠ 7),
      .inl hclear⟩).tail ⟨.waitReturns _ (w := ⟨7,sampleLanded.sent,1⟩) (by decide) (by decide),.inr rfl⟩
    exact barrier_sound.2.2 _ hrun ⟨7,sampleLanded.sent,1⟩ (by decide)

/-- The barrier returns when the checkpoint has landed, and the release has not. -/
theorem sample_barrier_early : ¬∀ s : CatalogWriter String, Reachable s →
    ∀ w ∈ s.returned, ∀ m ∈ w.before, m ∈ s.log := by
  intro h
  have hrun : Reachable (((((sampleRaced.waitDurable 0).receive ⟨"offset",2,false⟩
      [⟨"left",1,false⟩]).land ⟨"offset",2,false⟩).publish ⟨"offset",2,false⟩).waitReturns
        ⟨0,sampleRaced.sent,2⟩) := by
    refine Relation.ReflTransGen.refl.tail (.number _ "left" false) |>.tail
      (.number _ "offset" false) |>.tail (.enqueue _ (m := ⟨"offset",2,false⟩) (by decide)) |>.tail
      (.enqueue _ (m := ⟨"left",1,false⟩) (by decide)) |>.tail (@Step.wait _ _ 0 (by decide)) |>.tail
      (.receive _ rfl rfl) |>.tail (.land _ rfl) |>.tail (.publish _ rfl) |>.tail
      (.waitReturns _ (by decide) (by decide))
  have hstored := h _ hrun ⟨0,sampleRaced.sent,2⟩ (by decide) ⟨"left",1,false⟩ (by decide)
  exact absurd hstored (by decide)

end CatalogWriter
end ElectricCircuits
