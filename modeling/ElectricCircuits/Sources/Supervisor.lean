import ElectricCircuits.Sources.Plan
import Mathlib.Logic.Relation

/-! The supervisor of the sources host: a refresh starts, stops and restarts workers one after the other,
waits in between, and can be dropped wherever it waits. -/
namespace ElectricCircuits

inductive WorkerPhase where
  | booting
  | serving
  | stopping
  deriving DecidableEq

/-- A live worker thread, with the number that tells it from every other one. -/
structure SourceWorker where
  wid : ℕ
  row : SourceRow
  phase : WorkerPhase
  deriving DecidableEq

namespace SourceWorker

def key (w : SourceWorker) : String × ℕ := (w.row.sourceId,w.wid)

/-- The shutdown of the worker's engine begins. -/
def told (w : SourceWorker) : SourceWorker :=
  if w.phase = .serving then { w with phase := .stopping } else w

@[simp] lemma key_told (w : SourceWorker) : w.told.key = w.key := by
  unfold told
  split_ifs <;> rfl

end SourceWorker

/-- What a refresh is at with one action of its plan. -/
inductive RefreshTask where
  | next
  | stopping (id : String) (wid : ℕ)
  | stopped (id : String)
  | removed (row : SourceRow) (wid : ℕ)
  | restarting (row : SourceRow) (wid : ℕ)
  | launching (row : SourceRow)
  | starting (row : SourceRow) (wid : ℕ)
  | started (row : SourceRow) (wid : ℕ)
  | undoing (row : SourceRow) (wid : ℕ)
  | failing (row : SourceRow)

namespace RefreshTask

/-- The source that is worked on. -/
def source : RefreshTask → List String
  | next => []
  | stopping id _ | stopped id => [id]
  | removed row _ | restarting row _ | launching row | starting row _ | started row _ | undoing row _
  | failing row => [row.sourceId]

/-- The worker that only the refresh knows. -/
def held : RefreshTask → List (String × ℕ)
  | stopping id wid => [(id,wid)]
  | removed row wid | restarting row wid | starting row wid | started row wid | undoing row wid =>
    [(row.sourceId,wid)]
  | next | stopped _ | launching _ | failing _ => []

/-- The row that is to be started. -/
def row : RefreshTask → Option SourceRow
  | removed row _ | restarting row _ | launching row | starting row _ | started row _ | undoing row _
  | failing row => some row
  | next | stopping _ _ | stopped _ => none

end RefreshTask

inductive RefreshPhase where
  | idle
  | fetching
  | applying (rows : List SourceRow) (actions : List PlanAction) (task : RefreshTask)

def RefreshPhase.held : RefreshPhase → List (String × ℕ)
  | applying _ _ task => task.held
  | idle | fetching => []

/-- Does a worker's readiness reach somebody? -/
def RefreshPhase.awaits : RefreshPhase → ℕ → Bool
  | applying _ _ (.starting _ wid),w => wid = w
  | _,_ => false

/-- The supervisor's tables and its workers. The refresh and `shutdown_all` exclude each other;
`announced` has the workers whose readiness was received, `closing` the ones that `shutdown_all` took over,
and `settled` the rows of a refresh that completed after which nothing has changed. -/
structure Supervisor where
  running : AssocMap String (SourceRow × ℕ)
  failed : AssocMap String SourceRow
  refresh : RefreshPhase
  closing : Option (List (String × ℕ))
  shutdown : Bool
  workers : List SourceWorker
  nextWorker : ℕ
  announced : List ℕ
  settled : Option (List SourceRow)

namespace Supervisor

def new : Supervisor := ⟨.empty,.empty,.idle,none,false,[],0,[],none⟩

/-- The plan of a refresh on the tables as they are. -/
def plan (s : Supervisor) (rows : List SourceRow) : List PlanAction :=
  reconcileRefresh (s.running.mapValues fun _ r => r.1.revision) (s.failed.mapValues fun _ r => r.revision)
    rows

def tell (s : Supervisor) (wid : ℕ) : List SourceWorker :=
  s.workers.map fun w => if w.wid = wid then w.told else w

/-- The worker's thread has ended. -/
def Gone (s : Supervisor) (wid : ℕ) : Prop := ∀ w ∈ s.workers, w.wid ≠ wid

/-- The steps that a condition will be put on, and the others. -/
inductive Act where
  | cancel
  | giveUp (left : List PlanAction)
  | other

/-- One step of the refresh, of `shutdown_all`, or of a worker thread. -/
inductive Step : Supervisor → Act → Supervisor → Prop where
  | begin_ (s : Supervisor) (hidle : s.refresh = .idle) (hfree : s.closing = none)
    (hup : s.shutdown = false) : Step s .other { s with refresh := .fetching }
  | fetchFails (s : Supervisor) (h : s.refresh = .fetching) : Step s .other { s with refresh := .idle }
  | fetched (s : Supervisor) {rows : List SourceRow} (h : s.refresh = .fetching) (hvalid : validRows rows)
    (hup : s.shutdown = false) :
    Step s .other { s with refresh := .applying rows (s.plan rows) .next, settled := none }
  | bail (s : Supervisor) {rows : List SourceRow} {a : PlanAction} {as : List PlanAction}
    (h : s.refresh = .applying rows (a::as) .next) (hdown : s.shutdown = true) :
    Step s .other { s with refresh := .idle }
  | takeStop (s : Supervisor) {rows : List SourceRow} {id : String} {as : List PlanAction}
    {row : SourceRow} {wid : ℕ} (h : s.refresh = .applying rows (.stop id::as) .next)
    (hup : s.shutdown = false) (hrunning : s.running.get? id = some (row,wid)) :
    Step s .other { s with
      running := s.running.erase id
      workers := s.tell wid
      refresh := .applying rows as (.stopping id wid) }
  | skipStop (s : Supervisor) {rows : List SourceRow} {id : String} {as : List PlanAction}
    (h : s.refresh = .applying rows (.stop id::as) .next) (hup : s.shutdown = false)
    (hrunning : s.running.get? id = none) :
    Step s .other { s with refresh := .applying rows as (.stopped id) }
  | joinStop (s : Supervisor) {rows : List SourceRow} {id : String} {as : List PlanAction} {wid : ℕ}
    (h : s.refresh = .applying rows as (.stopping id wid)) (hgone : s.Gone wid) :
    Step s .other { s with refresh := .applying rows as (.stopped id) }
  | forgetFailed (s : Supervisor) {rows : List SourceRow} {id : String} {as : List PlanAction}
    (h : s.refresh = .applying rows as (.stopped id)) :
    Step s .other { s with failed := s.failed.erase id, refresh := .applying rows as .next }
  | takeRestart (s : Supervisor) {rows : List SourceRow} {row old : SourceRow} {as : List PlanAction}
    {wid : ℕ} (h : s.refresh = .applying rows (.restart row::as) .next) (hup : s.shutdown = false)
    (hrunning : s.running.get? row.sourceId = some (old,wid)) :
    Step s .other { s with
      running := s.running.erase row.sourceId
      refresh := .applying rows as (.removed row wid) }
  | skipRestart (s : Supervisor) {rows : List SourceRow} {row : SourceRow} {as : List PlanAction}
    (h : s.refresh = .applying rows (.restart row::as) .next) (hup : s.shutdown = false)
    (hrunning : s.running.get? row.sourceId = none) :
    Step s .other { s with refresh := .applying rows as (.launching row) }
  | markRestarting (s : Supervisor) {rows : List SourceRow} {row : SourceRow} {as : List PlanAction}
    {wid : ℕ} (h : s.refresh = .applying rows as (.removed row wid)) :
    Step s .other { s with
      failed := s.failed.insert row.sourceId row
      workers := s.tell wid
      refresh := .applying rows as (.restarting row wid) }
  | joinRestart (s : Supervisor) {rows : List SourceRow} {row : SourceRow} {as : List PlanAction} {wid : ℕ}
    (h : s.refresh = .applying rows as (.restarting row wid)) (hgone : s.Gone wid) :
    Step s .other { s with refresh := .applying rows as (.launching row) }
  | takeStart (s : Supervisor) {rows : List SourceRow} {row : SourceRow} {as : List PlanAction}
    (h : s.refresh = .applying rows (.start row::as) .next) (hup : s.shutdown = false) :
    Step s .other { s with refresh := .applying rows as (.launching row) }
  | spawn (s : Supervisor) {rows : List SourceRow} {row : SourceRow} {as : List PlanAction}
    (h : s.refresh = .applying rows as (.launching row)) :
    Step s .other { s with
      workers := s.workers ++ [⟨s.nextWorker,row,.booting⟩]
      nextWorker := s.nextWorker+1
      refresh := .applying rows as (.starting row s.nextWorker) }
  /- The row is not valid, or no thread can be made. -/
  | refuse (s : Supervisor) {rows : List SourceRow} {row : SourceRow} {as : List PlanAction}
    (h : s.refresh = .applying rows as (.launching row)) :
    Step s .other { s with refresh := .applying rows as (.failing row) }
  | leaveLaunch (s : Supervisor) {rows : List SourceRow} {row : SourceRow} {as : List PlanAction}
    (h : s.refresh = .applying rows as (.launching row)) (hdown : s.shutdown = true) :
    Step s (.giveUp as) { s with refresh := .applying rows as .next }
  | ready (s : Supervisor) {rows : List SourceRow} {row : SourceRow} {as : List PlanAction} {wid : ℕ}
    (h : s.refresh = .applying rows as (.starting row wid)) (hready : wid ∈ s.announced) :
    Step s .other { s with refresh := .applying rows as (.started row wid) }
  | bootFailed (s : Supervisor) {rows : List SourceRow} {row : SourceRow} {as : List PlanAction} {wid : ℕ}
    (h : s.refresh = .applying rows as (.starting row wid)) (hnot : wid ∉ s.announced)
    (hgone : s.Gone wid) : Step s .other { s with refresh := .applying rows as (.failing row) }
  | install (s : Supervisor) {rows : List SourceRow} {row : SourceRow} {as : List PlanAction} {wid : ℕ}
    (h : s.refresh = .applying rows as (.started row wid)) :
    Step s .other { s with
      failed := s.failed.erase row.sourceId
      running := s.running.insert row.sourceId (row,wid)
      refresh := .applying rows as .next }
  | undo (s : Supervisor) {rows : List SourceRow} {row : SourceRow} {as : List PlanAction} {wid : ℕ}
    (h : s.refresh = .applying rows as (.started row wid)) (hdown : s.shutdown = true) :
    Step s .other { s with
      workers := s.tell wid
      refresh := .applying rows as (.undoing row wid) }
  | undone (s : Supervisor) {rows : List SourceRow} {row : SourceRow} {as : List PlanAction} {wid : ℕ}
    (h : s.refresh = .applying rows as (.undoing row wid)) (hdown : s.shutdown = true)
    (hgone : s.Gone wid) : Step s (.giveUp as) { s with refresh := .applying rows as .next }
  | recordFailed (s : Supervisor) {rows : List SourceRow} {row : SourceRow} {as : List PlanAction}
    (h : s.refresh = .applying rows as (.failing row)) :
    Step s .other { s with
      failed := s.failed.insert row.sourceId row
      refresh := .applying rows as .next }
  | leaveFailed (s : Supervisor) {rows : List SourceRow} {row : SourceRow} {as : List PlanAction}
    (h : s.refresh = .applying rows as (.failing row)) (hdown : s.shutdown = true) :
    Step s (.giveUp as) { s with refresh := .applying rows as .next }
  | complete (s : Supervisor) {rows : List SourceRow} (h : s.refresh = .applying rows [] .next) :
    Step s .other { s with
      failed := s.failed.filter fun id _ => rows.any (·.sourceId == id)
      refresh := .idle
      settled := some rows }
  /- The caller goes away: the refresh is dropped where it waits, with all that it holds. -/
  | cancel (s : Supervisor) : Step s .cancel { s with refresh := .idle }
  | shutDown (s : Supervisor) : Step s .other { s with shutdown := true }
  | takeAll (s : Supervisor) (hdown : s.shutdown = true) (hidle : s.refresh = .idle)
    (hfree : s.closing = none) :
    Step s .other { s with
      closing := some (s.running.entries.map fun e => (e.1,e.2.2))
      running := .empty
      settled := none }
  | tellNext (s : Supervisor) {id : String} {wid : ℕ} {rest : List (String × ℕ)}
    (h : s.closing = some ((id,wid)::rest)) : Step s .other { s with workers := s.tell wid }
  | joinNext (s : Supervisor) {id : String} {wid : ℕ} {rest : List (String × ℕ)}
    (h : s.closing = some ((id,wid)::rest)) (hgone : s.Gone wid) :
    Step s .other { s with closing := some rest }
  | closed (s : Supervisor) (h : s.closing = some []) : Step s .other { s with closing := none }
  /- The source has booted: its readiness is received, or nobody waits for it and it shuts down. -/
  | booted (s : Supervisor) {w : SourceWorker} {before after : List SourceWorker}
    (h : s.workers = before ++ w::after) (hboot : w.phase = .booting) :
    Step s .other { s with
      workers := before ++ { w with phase := if s.refresh.awaits w.wid then .serving else .stopping }::after
      announced := if s.refresh.awaits w.wid then w.wid::s.announced else s.announced }
  /- The thread ends: its boot failed, it was told to, or its engine ended by itself. -/
  | exits (s : Supervisor) {w : SourceWorker} {before after : List SourceWorker}
    (h : s.workers = before ++ w::after) : Step s .other { s with workers := before ++ after }

/-- A live worker is known: it is in the running table, or a refresh or `shutdown_all` that is under way
holds it. -/
def Owns (s : Supervisor) (id : String) (wid : ℕ) : Prop :=
  (∃ row, s.running.get? id = some (row,wid)) ∨ (id,wid) ∈ s.refresh.held ∨
    ∃ ws ∈ s.closing, (id,wid) ∈ ws

/-- The tables have the desired sources, each at its desired revision, and no other. -/
def Matches (s : Supervisor) (rows : List SourceRow) : Prop :=
  (∀ row ∈ rows, (∃ r wid, s.running.get? row.sourceId = some (r,wid) ∧ r.revision = row.revision) ∨
    ∃ r, s.failed.get? row.sourceId = some r ∧ r.revision = row.revision) ∧
  ∀ id, (s.running.get? id).isSome ∨ (s.failed.get? id).isSome → ∃ row ∈ rows, row.sourceId = id

/-- The condition on a step: a refresh is dropped only where it holds no worker; and it gives a source up
because of the shutdown only while it has another one to come to. -/
def Allowed (s : Supervisor) : Act → Prop
  | .cancel => s.refresh.held = []
  | .giveUp left => left ≠ []
  | .other => True

def Steps : Supervisor → Supervisor → Prop := Relation.ReflTransGen fun s t => ∃ a, Step s a t

/-- A run whose steps all meet the condition. -/
def GuardedSteps : Supervisor → Supervisor → Prop :=
  Relation.ReflTransGen fun s t => ∃ a, s.Allowed a ∧ Step s a t

/-- The tables have one source as it is desired, or do not run it if it is not. -/
def MatchesAt (s : Supervisor) (rows : List SourceRow) (id : String) : Prop :=
  (∀ row ∈ rows, row.sourceId = id →
    (∃ r wid, s.running.get? id = some (r,wid) ∧ r.revision = row.revision) ∨
      ∃ r, s.failed.get? id = some r ∧ r.revision = row.revision) ∧
  ((∀ row ∈ rows, row.sourceId ≠ id) → s.running.get? id = none)

/-- What holds while a plan is applied: each source that neither the rest of the plan nor the present task
is about is as it is desired, unless one was given up and the refresh is about to end. -/
structure Applying (s : Supervisor) (rows : List SourceRow) (actions : List PlanAction)
    (task : RefreshTask) : Prop where
  free : s.closing = none
  valid : validRows rows
  nodup : (task.source ++ actions.map (·.sourceId)).Nodup
  stops : ∀ id, .stop id ∈ actions ∨ (∃ wid, task = .stopping id wid) ∨ task = .stopped id →
    ∀ row ∈ rows, row.sourceId ≠ id
  starts : ∀ row, .start row ∈ actions → s.running.get? row.sourceId = none
  known : ∀ row, .start row ∈ actions ∨ .restart row ∈ actions ∨ row ∈ task.row → row ∈ rows
  working : ∀ id ∈ task.source, s.running.get? id = none
  covered : s.shutdown = true ∧ actions ≠ [] ∧ task = .next ∨
    ∀ id, id ∉ task.source ++ actions.map (·.sourceId) → s.MatchesAt rows id

/-- Tables that differ only in some sources. -/
def SameTables (s t : Supervisor) (ids : List String) : Prop :=
  ∀ id, id ∉ ids → t.running.get? id = s.running.get? id ∧ t.failed.get? id = s.failed.get? id

lemma SameTables.refl (s : Supervisor) (ids : List String) : SameTables s s ids := fun _ _ => ⟨rfl,rfl⟩

lemma MatchesAt.congr {s t : Supervisor} {rows : List SourceRow} {id : String} (h : s.MatchesAt rows id)
    (hrunning : t.running.get? id = s.running.get? id) (hfailed : t.failed.get? id = s.failed.get? id) :
    t.MatchesAt rows id := by
  unfold MatchesAt
  rw [hrunning,hfailed]
  exact h

/-- What a refresh plans, on tables that have no source twice. -/
lemma mem_plan {s : Supervisor} {rows : List SourceRow} (hvalid : validRows rows)
    (hapart : ∀ id, (s.running.get? id).isSome → s.failed.get? id = none) (a : PlanAction) :
    a ∈ s.plan rows ↔
      (∃ id r wid, s.running.get? id = some (r,wid) ∧
        ((∀ row ∈ rows, row.sourceId ≠ id) ∧ a = .stop id ∨
          ∃ row ∈ rows, row.sourceId = id ∧ row.revision ≠ r.revision ∧ a = .restart row)) ∨
      ∃ row ∈ rows, s.running.get? row.sourceId = none ∧ a = .start row := by
  -- a source that failed is not among the running ones the plan is made for
  have heff : ∀ id, ((s.failed.mapValues fun _ r => r.revision).keys.foldl (·.erase ·)
      (s.running.mapValues fun _ r => r.1.revision)).get? id = (s.running.get? id).map (·.1.revision) := by
    intro id
    rw [get?_foldl_erase,AssocMap.get?_mapValues]
    split_ifs with hid
    · have hfailed : (s.failed.get? id).isSome := by
        obtain ⟨⟨k,v⟩,he,rfl⟩ := List.mem_map.mp hid
        have hget := (AssocMap.mem_entries _ _ _).mp he
        rw [AssocMap.get?_mapValues] at hget
        cases hf : s.failed.get? k with
        | none => simp [hf] at hget
        | some r => rfl
      cases hr : s.running.get? id with
      | none => rfl
      | some r => simp [hapart id (by simp [hr])] at hfailed
    · cases s.running.get? id <;> rfl
  rw [plan,reconcileRefresh,mem_reconcile hvalid]
  simp only [heff,Option.map_eq_some_iff,Option.map_eq_none_iff]
  refine or_congr_left ⟨?_,?_⟩
  · rintro ⟨id,_,⟨⟨r,wid⟩,hr,rfl⟩,h⟩
    exact ⟨id,r,wid,hr,h⟩
  · rintro ⟨id,r,wid,hr,h⟩
    exact ⟨id,_,⟨(r,wid),hr,rfl⟩,h⟩

/-- The plan of a refresh is about every source that is not as desired. -/
lemma applying_plan {s : Supervisor} {rows : List SourceRow} (hfree : s.closing = none)
    (hvalid : validRows rows) (hapart : ∀ id, (s.running.get? id).isSome → s.failed.get? id = none) :
    s.Applying rows (s.plan rows) .next := by
  have hmem := mem_plan hvalid hapart
  refine ⟨hfree,hvalid,nodup_reconcile hvalid,?_,?_,?_,(fun _ h => by cases h),.inr fun id hid => ⟨?_,?_⟩⟩
  · rintro id (h | ⟨_,h⟩ | h)
    · rcases (hmem _).mp h with ⟨id',r,wid,-,⟨hnone,he⟩ | ⟨row,-,-,-,he⟩⟩ | ⟨row,-,-,he⟩
      · exact PlanAction.stop.inj he ▸ hnone
      · cases he
      · cases he
    · cases h
    · cases h
  · intro row h
    rcases (hmem _).mp h with ⟨id',r,wid,-,⟨-,he⟩ | ⟨row,-,-,-,he⟩⟩ | ⟨row',-,hnone,he⟩
    · cases he
    · cases he
    · exact PlanAction.start.inj he ▸ hnone
  · rintro row (h | h | h)
    · rcases (hmem _).mp h with ⟨id',r,wid,-,⟨-,he⟩ | ⟨row,-,-,-,he⟩⟩ | ⟨row',hrow,-,he⟩
      · cases he
      · cases he
      · exact PlanAction.start.inj he ▸ hrow
    · rcases (hmem _).mp h with ⟨id',r,wid,-,⟨-,he⟩ | ⟨row',hrow,-,-,he⟩⟩ | ⟨row',hrow,-,he⟩
      · cases he
      · exact PlanAction.restart.inj he ▸ hrow
      · cases he
    · cases h
  · rintro row hrow rfl
    have hnot : ∀ a ∈ s.plan rows, a.sourceId ≠ row.sourceId :=
      fun a ha he => hid (List.mem_map.mpr ⟨a,ha,he⟩)
    cases hr : s.running.get? row.sourceId with
    | none => exact absurd rfl (hnot (.start row) ((hmem _).mpr (.inr ⟨row,hrow,hr,rfl⟩)))
    | some e =>
      refine .inl ⟨e.1,e.2,rfl,by_contra fun hne => hnot (.restart row) ((hmem _).mpr (.inl ?_)) rfl⟩
      exact ⟨_,e.1,e.2,hr,.inr ⟨row,hrow,rfl,Ne.symm hne,rfl⟩⟩
  · intro hnone
    cases hr : s.running.get? id with
    | none => rfl
    | some e =>
      refine absurd (List.mem_map.mpr ⟨.stop id,(hmem _).mpr (.inl ?_),rfl⟩) hid
      exact ⟨id,e.1,e.2,hr,.inl ⟨hnone,rfl⟩⟩

/-- The next action is taken up. -/
lemma Applying.take {s t : Supervisor} {rows : List SourceRow} {a : PlanAction} {as : List PlanAction}
    (h : s.Applying rows (a::as) .next) (hup : s.shutdown = false) (task : RefreshTask)
    (hsource : task.source = [a.sourceId]) (hsame : SameTables s t [a.sourceId])
    (hfree : t.closing = s.closing) (hworking : t.running.get? a.sourceId = none)
    (hstops : ∀ id, (∃ wid, task = .stopping id wid) ∨ task = .stopped id → a = .stop id)
    (hrow : ∀ row ∈ task.row, a = .start row ∨ a = .restart row) : t.Applying rows as task := by
  have hnodup : (a.sourceId::as.map (·.sourceId)).Nodup := h.nodup
  refine ⟨hfree.trans h.free,h.valid,by rwa [hsource],fun id hid => h.stops id ?_,?_,?_,?_,.inr ?_⟩
  · rcases hid with hid | hid
    · exact .inl (.tail _ hid)
    · exact .inl (hstops id hid ▸ .head _)
  · intro row hmem
    have hne : row.sourceId ∉ [a.sourceId] := by
      rintro hin
      exact (List.nodup_cons.mp hnodup).1 (List.mem_map.mpr ⟨_,hmem,List.mem_singleton.mp hin⟩)
    rw [(hsame _ hne).1]
    exact h.starts row (.tail _ hmem)
  · rintro row (hmem | hmem | hmem)
    · exact h.known row (.inl (.tail _ hmem))
    · exact h.known row (.inr (.inl (.tail _ hmem)))
    · rcases hrow row hmem with rfl | rfl
      · exact h.known row (.inl (.head _))
      · exact h.known row (.inr (.inl (.head _)))
  · intro id hid
    rw [hsource,List.mem_singleton] at hid
    exact hid ▸ hworking
  · intro id hid
    rw [hsource] at hid
    have hcovered := h.covered.resolve_left fun hdown => by simp [hup] at hdown
    have hne : id ∉ [a.sourceId] := fun hin => hid (List.mem_append_left _ hin)
    exact (hcovered id hid).congr (hsame id hne).1 (hsame id hne).2

/-- The task moves on with the same source. -/
lemma Applying.goOn {s t : Supervisor} {rows : List SourceRow} {as : List PlanAction} {task : RefreshTask}
    (h : s.Applying rows as task) (hne : task ≠ .next) (task' : RefreshTask)
    (hsource : task'.source = task.source) (hsame : SameTables s t task.source)
    (hfree : t.closing = s.closing) (hworking : ∀ id ∈ task.source, t.running.get? id = none)
    (hstops : ∀ id, (∃ wid, task' = .stopping id wid) ∨ task' = .stopped id →
      (∃ wid, task = .stopping id wid) ∨ task = .stopped id)
    (hrow : ∀ row ∈ task'.row, row ∈ task.row) : t.Applying rows as task' := by
  refine ⟨hfree.trans h.free,h.valid,by rw [hsource]; exact h.nodup,fun id hid => ?_,?_,?_,?_,.inr ?_⟩
  · exact h.stops id (hid.imp_right (hstops id))
  · intro row hmem
    have hnot : row.sourceId ∉ task.source := fun hin =>
      (List.nodup_append.mp h.nodup).2.2 _ hin _ (List.mem_map.mpr ⟨_,hmem,rfl⟩) rfl
    rw [(hsame _ hnot).1]
    exact h.starts row hmem
  · exact fun row hmem => h.known row (hmem.imp_right (Or.imp_right (hrow row)))
  · exact fun id hid => hworking id (hsource ▸ hid)
  · intro id hid
    rw [hsource] at hid
    have hcovered := h.covered.resolve_left fun hdown => hne hdown.2.2
    have hnot : id ∉ task.source := fun hin => hid (List.mem_append_left _ hin)
    exact (hcovered id hid).congr (hsame id hnot).1 (hsame id hnot).2

/-- The task is over: its source is as it is desired, or was given up. -/
lemma Applying.done {s t : Supervisor} {rows : List SourceRow} {as : List PlanAction} {task : RefreshTask}
    (h : s.Applying rows as task) (hne : task ≠ .next) (hsame : SameTables s t task.source)
    (hfree : t.closing = s.closing)
    (hat : t.shutdown = true ∧ as ≠ [] ∨ ∀ id ∈ task.source, t.MatchesAt rows id) :
    t.Applying rows as .next := by
  have hstarts : ∀ row, .start row ∈ as → t.running.get? row.sourceId = none := by
    intro row hmem
    have hnot : row.sourceId ∉ task.source := fun hin =>
      (List.nodup_append.mp h.nodup).2.2 _ hin _ (List.mem_map.mpr ⟨_,hmem,rfl⟩) rfl
    rw [(hsame _ hnot).1]
    exact h.starts row hmem
  refine ⟨hfree.trans h.free,h.valid,(List.nodup_append.mp h.nodup).2.1,?_,hstarts,?_,?_,?_⟩
  · rintro id (hmem | ⟨_,hid⟩ | hid)
    · exact h.stops id (.inl hmem)
    · cases hid
    · cases hid
  · rintro row (hmem | hmem | hmem)
    · exact h.known row (.inl hmem)
    · exact h.known row (.inr (.inl hmem))
    · cases hmem
  · intro id hid
    cases hid
  · refine hat.imp (fun hdown => ⟨hdown.1,hdown.2,rfl⟩) fun hat id hid => ?_
    by_cases hin : id ∈ task.source
    · exact hat id hin
    · have hcovered := h.covered.resolve_left fun hdown => hne hdown.2.2
      have hnot : id ∉ task.source ++ as.map (·.sourceId) := by
        simpa [RefreshTask.source] using ⟨hin,by simpa [RefreshTask.source] using hid⟩
      exact (hcovered id hnot).congr (hsame id hin).1 (hsame id hin).2

/-- What holds at any time of a run whose steps meet the condition. -/
structure Inv (s : Supervisor) : Prop where
  owned : ∀ k ∈ s.workers.map SourceWorker.key, s.Owns k.1 k.2
  wids : ((s.workers.map SourceWorker.key).map Prod.snd).Nodup
  below : ∀ k ∈ s.workers.map SourceWorker.key, k.2 < s.nextWorker
  apart : ∀ id, (s.running.get? id).isSome → s.failed.get? id = none
  applying : ∀ rows as task, s.refresh = .applying rows as task → s.Applying rows as task
  closing : ∀ ws ∈ s.closing, s.refresh = .idle ∧ (∀ id, s.running.get? id = none) ∧
    (ws.map Prod.fst).Nodup
  settled : ∀ rows ∈ s.settled, (∀ rows' as task, s.refresh ≠ .applying rows' as task) ∧ validRows rows ∧
    s.Matches rows

lemma inv_new : Inv new where
  owned := by simp [new]
  wids := by simp [new]
  below := by simp [new]
  apart := by simp [new]
  applying := by simp [new]
  closing := by simp [new]
  settled := by simp [new]

@[simp] lemma keys_tell (s : Supervisor) (wid : ℕ) :
    (s.tell wid).map SourceWorker.key = s.workers.map SourceWorker.key := by
  rw [tell,List.map_map]
  refine List.map_congr_left fun w _ => ?_
  dsimp only [Function.comp_apply]
  split_ifs
  · exact w.key_told
  · rfl

lemma mem_source_of_held {task : RefreshTask} {id : String} {wid : ℕ} (h : (id,wid) ∈ task.held) :
    id ∈ task.source := by
  cases task <;> simp_all [RefreshTask.held,RefreshTask.source]

lemma owns_iff {s : Supervisor} {rows : List SourceRow} {as : List PlanAction} {task : RefreshTask}
    (hr : s.refresh = .applying rows as task) (hfree : s.closing = none) (id : String) (wid : ℕ) :
    s.Owns id wid ↔ (∃ row, s.running.get? id = some (row,wid)) ∨ (id,wid) ∈ task.held := by
  simp [Owns,hr,hfree,RefreshPhase.held]

/-- The refresh goes on to another task. -/
lemma Inv.apply {s t : Supervisor} (h : Inv s) {rows rows' : List SourceRow} {as as' : List PlanAction}
    {task task' : RefreshTask} (hs : s.refresh = .applying rows as task)
    (ht : t.refresh = .applying rows' as' task') (hnext : t.nextWorker = s.nextWorker)
    (hkeys : (t.workers.map SourceWorker.key) = s.workers.map SourceWorker.key)
    (hsettled : t.settled = s.settled) (happlying : t.Applying rows' as' task')
    (hapart : ∀ id, (t.running.get? id).isSome → t.failed.get? id = none)
    (hown : ∀ id wid, (∃ row, s.running.get? id = some (row,wid)) ∨ (id,wid) ∈ task.held →
      (∃ row, t.running.get? id = some (row,wid)) ∨ (id,wid) ∈ task'.held ∨ s.Gone wid) : Inv t where
  owned := by
    intro k hk
    rw [hkeys] at hk
    have howned := (owns_iff hs (h.applying _ _ _ hs).free _ _).mp (h.owned k hk)
    rw [owns_iff ht happlying.free]
    rcases hown _ _ howned with hrun | hheld | hgone
    · exact .inl hrun
    · exact .inr hheld
    · obtain ⟨w,hw,rfl⟩ := List.mem_map.mp hk
      exact absurd rfl (hgone w hw)
  wids := hkeys ▸ h.wids
  below := by
    rw [hkeys,hnext]
    exact h.below
  apart := hapart
  applying := by
    intro rows as task hr
    rw [ht] at hr
    obtain ⟨rfl,rfl,rfl⟩ := RefreshPhase.applying.inj hr
    exact happlying
  closing := fun ws hws => by simp [happlying.free] at hws
  settled := fun rows' hrows' => absurd hs ((h.settled rows' (hsettled ▸ hrows')).1 _ _ _)

/-- Only the workers change, and none is new. -/
lemma Inv.setWorkers {s : Supervisor} (h : Inv s) (workers : List SourceWorker) (announced : List ℕ)
    (hkeys : (workers.map SourceWorker.key).Sublist (s.workers.map SourceWorker.key)) :
    Inv { s with workers := workers, announced := announced } :=
  { h with
    owned := fun k hk => h.owned k (hkeys.subset hk)
    wids := (hkeys.map _).nodup h.wids
    below := fun k hk => h.below k (hkeys.subset hk)
    applying := fun rows as task hr => { h.applying rows as task hr with } }

/-- The refresh ends, and with it goes only what it does not hold. -/
lemma Inv.leave {s : Supervisor} (h : Inv s) (hheld : s.refresh.held = []) :
    Inv { s with refresh := .idle } :=
  { h with
    owned := fun k hk => (h.owned k hk).imp_right (Or.imp_left (by simp [hheld]))
    applying := fun rows as task hr => by cases hr
    closing := fun ws hws => ⟨rfl,(h.closing ws hws).2⟩
    settled := fun rows hrows => ⟨by simp,(h.settled rows hrows).2⟩ }

lemma sameTables_erase {s t : Supervisor} {id : String} (hrunning : t.running = s.running.erase id)
    (hfailed : t.failed = s.failed) : SameTables s t [id] := by
  intro id' hid'
  have hne : id ≠ id' := fun he => hid' (he ▸ .head _)
  rw [hrunning,hfailed,AssocMap.get?_erase]
  simp [hne]

/-- A source leaves the running table for the hands of the refresh. -/
lemma owns_erase {s t : Supervisor} {id : String} {row : SourceRow} {wid : ℕ}
    (hrunning : s.running.get? id = some (row,wid)) (ht : t.running = s.running.erase id)
    {held : List (String × ℕ)} (hheld : (id,wid) ∈ held) (id' : String) (wid' : ℕ)
    (h : (∃ row, s.running.get? id' = some (row,wid')) ∨ (id',wid') ∈ RefreshTask.next.held) :
    (∃ row, t.running.get? id' = some (row,wid')) ∨ (id',wid') ∈ held ∨ s.Gone wid' := by
  rcases h with ⟨row',h⟩ | h
  · by_cases he : id = id'
    · subst he
      obtain ⟨-,rfl⟩ := Prod.mk.inj (Option.some.inj (hrunning.symm.trans h))
      exact .inr (.inl hheld)
    · refine .inl ⟨row',?_⟩
      rw [ht,AssocMap.get?_erase]
      simpa [he] using h
  · cases h

lemma apart_erase {s t : Supervisor} (h : Inv s) {id : String} (hrunning : t.running = s.running.erase id)
    (hfailed : t.failed = s.failed) (id' : String) (hrun : (t.running.get? id').isSome) :
    t.failed.get? id' = none := by
  rw [hrunning,AssocMap.get?_erase] at hrun
  split_ifs at hrun with he
  · simp at hrun
  · exact hfailed ▸ h.apart id' hrun

lemma Inv.takeStop {s : Supervisor} (h : Inv s) {rows : List SourceRow} {id : String}
    {as : List PlanAction} {row : SourceRow} {wid : ℕ}
    (hs : s.refresh = .applying rows (.stop id::as) .next) (hup : s.shutdown = false)
    (hrunning : s.running.get? id = some (row,wid)) :
    Inv { s with
      running := s.running.erase id
      workers := s.tell wid
      refresh := .applying rows as (.stopping id wid) } := by
  refine h.apply hs rfl rfl (by simp) rfl ?_ (apart_erase h rfl rfl)
    (owns_erase hrunning rfl (List.mem_singleton_self _))
  exact (h.applying _ _ _ hs).take hup _ rfl (sameTables_erase rfl rfl) rfl
    (AssocMap.get?_erase_self _ _) (by simp) (by simp [RefreshTask.row])

lemma Inv.takeRestart {s : Supervisor} (h : Inv s) {rows : List SourceRow} {row old : SourceRow}
    {as : List PlanAction} {wid : ℕ} (hs : s.refresh = .applying rows (.restart row::as) .next)
    (hup : s.shutdown = false) (hrunning : s.running.get? row.sourceId = some (old,wid)) :
    Inv { s with
      running := s.running.erase row.sourceId
      refresh := .applying rows as (.removed row wid) } := by
  refine h.apply hs rfl rfl rfl rfl ?_ (apart_erase h rfl rfl)
    (owns_erase hrunning rfl (List.mem_singleton_self _))
  exact (h.applying _ _ _ hs).take hup _ rfl (sameTables_erase rfl rfl) rfl
    (AssocMap.get?_erase_self _ _) (by simp) (by simp [RefreshTask.row])

/-- An action whose source is not running is taken up with the tables as they are. -/
lemma Inv.takeAbsent {s : Supervisor} (h : Inv s) {rows : List SourceRow} {a : PlanAction}
    {as : List PlanAction} (hs : s.refresh = .applying rows (a::as) .next) (hup : s.shutdown = false)
    (hrunning : s.running.get? a.sourceId = none) (task : RefreshTask) (hsource : task.source = [a.sourceId])
    (hstops : ∀ id, (∃ wid, task = .stopping id wid) ∨ task = .stopped id → a = .stop id)
    (hrow : ∀ row ∈ task.row, a = .start row ∨ a = .restart row) :
    Inv { s with refresh := .applying rows as task } := by
  refine h.apply hs rfl rfl rfl rfl ?_ h.apart fun id wid ho => ho.imp_right fun hh => by cases hh
  exact (h.applying _ _ _ hs).take hup _ hsource (.refl _ _) rfl hrunning hstops hrow

/-- The refresh goes on with the same source and leaves the tables as they are. -/
lemma Inv.goOn {s : Supervisor} (h : Inv s) {rows : List SourceRow} {as : List PlanAction}
    {task : RefreshTask} (hs : s.refresh = .applying rows as task) (hne : task ≠ .next)
    (task' : RefreshTask) (hsource : task'.source = task.source)
    (hstops : ∀ id, (∃ wid, task' = .stopping id wid) ∨ task' = .stopped id →
      (∃ wid, task = .stopping id wid) ∨ task = .stopped id)
    (hrow : ∀ row ∈ task'.row, row ∈ task.row)
    (hheld : ∀ k ∈ task.held, k ∈ task'.held ∨ s.Gone k.2) :
    Inv { s with refresh := .applying rows as task' } := by
  have happlying := h.applying _ _ _ hs
  refine h.apply hs rfl rfl rfl rfl ?_ h.apart fun id wid ho => ho.imp_right (hheld (id,wid))
  exact happlying.goOn hne _ hsource (.refl _ _) rfl happlying.working hstops hrow

/-- A source is given up at the shutdown, with another action to come. -/
lemma Inv.giveUp {s : Supervisor} (h : Inv s) {rows : List SourceRow} {as : List PlanAction}
    {task : RefreshTask} (hs : s.refresh = .applying rows as task) (hne : task ≠ .next)
    (hheld : ∀ k ∈ task.held, s.Gone k.2) (hdown : s.shutdown = true) (has : as ≠ []) :
    Inv { s with refresh := .applying rows as .next } := by
  refine h.apply hs rfl rfl rfl rfl ?_ h.apart fun id wid ho =>
    ho.imp_right fun hh => .inr (hheld (id,wid) hh)
  exact (h.applying _ _ _ hs).done hne (.refl _ _) rfl (.inl ⟨hdown,has⟩)

lemma get?_insert_ne {β : Type*} {m : AssocMap String β} {k k' : String} {v : β} (h : k ≠ k') :
    (m.insert k v).get? k' = m.get? k' := by
  rw [AssocMap.get?_insert_eq,if_neg h]

/-- A source that is not running is put down as failed. -/
lemma apart_insertFailed {s t : Supervisor} (h : Inv s) {row : SourceRow} (hrunning : t.running = s.running)
    (hfailed : t.failed = s.failed.insert row.sourceId row) (hnone : s.running.get? row.sourceId = none)
    (id : String) (hrun : (t.running.get? id).isSome) : t.failed.get? id = none := by
  rw [hrunning] at hrun
  have hne : row.sourceId ≠ id := by
    rintro rfl
    simp [hnone] at hrun
  rw [hfailed,get?_insert_ne hne]
  exact h.apart id hrun

lemma sameTables_insertFailed {s t : Supervisor} {row : SourceRow} (hrunning : t.running = s.running)
    (hfailed : t.failed = s.failed.insert row.sourceId row) : SameTables s t [row.sourceId] := by
  intro id hid
  have hne : row.sourceId ≠ id := fun he => hid (he ▸ .head _)
  rw [hrunning,hfailed,get?_insert_ne hne]
  exact ⟨rfl,rfl⟩

lemma Inv.markRestarting {s : Supervisor} (h : Inv s) {rows : List SourceRow} {row : SourceRow}
    {as : List PlanAction} {wid : ℕ} (hs : s.refresh = .applying rows as (.removed row wid)) :
    Inv { s with
      failed := s.failed.insert row.sourceId row
      workers := s.tell wid
      refresh := .applying rows as (.restarting row wid) } := by
  have happlying := h.applying _ _ _ hs
  have hnone := happlying.working row.sourceId (.head _)
  refine h.apply hs rfl rfl (by simp) rfl ?_ (apart_insertFailed h rfl rfl hnone) fun id wid ho =>
    ho.imp_right .inl
  exact happlying.goOn (by simp) _ rfl (sameTables_insertFailed rfl rfl) rfl happlying.working (by simp)
    fun _ hrow => hrow

lemma Inv.recordFailed {s : Supervisor} (h : Inv s) {rows : List SourceRow} {row : SourceRow}
    {as : List PlanAction} (hs : s.refresh = .applying rows as (.failing row)) :
    Inv { s with
      failed := s.failed.insert row.sourceId row
      refresh := .applying rows as .next } := by
  have happlying := h.applying _ _ _ hs
  have hnone := happlying.working row.sourceId (.head _)
  have hrow := happlying.known row (.inr (.inr rfl))
  refine h.apply hs rfl rfl rfl rfl ?_ (apart_insertFailed h rfl rfl hnone) fun id wid ho =>
    ho.imp_right fun hh => by cases hh
  refine happlying.done (by simp) (sameTables_insertFailed rfl rfl) rfl (.inr fun id hid => ?_)
  obtain rfl := List.mem_singleton.mp hid
  refine ⟨fun row' hrow' he => .inr ⟨row,AssocMap.get?_insert_self _ _ _,?_⟩,fun _ => hnone⟩
  rw [List.inj_on_of_nodup_map happlying.valid hrow' hrow he]

lemma Inv.install {s : Supervisor} (h : Inv s) {rows : List SourceRow} {row : SourceRow}
    {as : List PlanAction} {wid : ℕ} (hs : s.refresh = .applying rows as (.started row wid)) :
    Inv { s with
      failed := s.failed.erase row.sourceId
      running := s.running.insert row.sourceId (row,wid)
      refresh := .applying rows as .next } := by
  have happlying := h.applying _ _ _ hs
  have hnone := happlying.working row.sourceId (.head _)
  have hrow := happlying.known row (.inr (.inr rfl))
  refine h.apply hs rfl rfl rfl rfl ?_ (fun id hrun => ?_) fun id wid' ho => .inl ?_
  · refine happlying.done (by simp) (fun id hid => ?_) rfl (.inr fun id hid => ?_)
    · have hne : row.sourceId ≠ id := fun he => hid (he ▸ .head _)
      exact ⟨get?_insert_ne hne,by simp [AssocMap.get?_erase,hne]⟩
    · obtain rfl := List.mem_singleton.mp hid
      refine ⟨fun row' hrow' he => .inl ⟨row,wid,AssocMap.get?_insert_self _ _ _,?_⟩,fun hno => ?_⟩
      · rw [List.inj_on_of_nodup_map happlying.valid hrow' hrow he]
      · exact absurd rfl (hno row hrow)
  · dsimp only at hrun ⊢
    by_cases he : row.sourceId = id
    · simp [he]
    · rw [get?_insert_ne he] at hrun
      simp [AssocMap.get?_erase,he,h.apart id hrun]
  · rcases ho with ⟨r,hr⟩ | hheld
    · have hne : row.sourceId ≠ id := by
        rintro rfl
        simp [hnone] at hr
      exact ⟨r,(get?_insert_ne hne).trans hr⟩
    · obtain ⟨rfl,rfl⟩ := Prod.mk.inj (List.mem_singleton.mp hheld)
      exact ⟨row,AssocMap.get?_insert_self _ _ _⟩

lemma Inv.forgetFailed {s : Supervisor} (h : Inv s) {rows : List SourceRow} {id : String}
    {as : List PlanAction} (hs : s.refresh = .applying rows as (.stopped id)) :
    Inv { s with failed := s.failed.erase id, refresh := .applying rows as .next } := by
  have happlying := h.applying _ _ _ hs
  refine h.apply hs rfl rfl rfl rfl ?_ (fun id' hrun => ?_) fun id wid ho =>
    ho.imp_right fun hh => by cases hh
  · refine happlying.done (by simp) (fun id' hid' => ⟨rfl,?_⟩) rfl (.inr fun id' hid' => ?_)
    · have hne : id ≠ id' := fun he => hid' (he ▸ .head _)
      simp [AssocMap.get?_erase,hne]
    · obtain rfl := List.mem_singleton.mp hid'
      have hno := happlying.stops id' (.inr (.inr rfl))
      exact ⟨fun row hrow he => absurd he (hno row hrow),fun _ => happlying.working id' (.head _)⟩
  · dsimp only
    rw [AssocMap.get?_erase]
    split_ifs
    · rfl
    · exact h.apart id' hrun

lemma Inv.spawn {s : Supervisor} (h : Inv s) {rows : List SourceRow} {row : SourceRow}
    {as : List PlanAction} (hs : s.refresh = .applying rows as (.launching row)) :
    Inv { s with
      workers := s.workers ++ [⟨s.nextWorker,row,.booting⟩]
      nextWorker := s.nextWorker+1
      refresh := .applying rows as (.starting row s.nextWorker) } := by
  have happlying := h.applying _ _ _ hs
  -- the tables are those of a refresh that only goes on
  have hon := h.goOn hs (by simp) (.starting row s.nextWorker) rfl (by simp) (fun _ hrow => hrow)
    (by simp [RefreshTask.held])
  refine { hon with owned := ?_, wids := ?_, below := ?_, applying := ?_ }
  · intro k hk
    rw [List.map_append,List.mem_append] at hk
    rcases hk with hk | hk
    · exact hon.owned k hk
    · obtain rfl := List.mem_singleton.mp hk
      exact .inr (.inl (.head _))
  · rw [List.map_append,List.map_append,List.nodup_append]
    refine ⟨h.wids,List.nodup_singleton _,fun n hn m hm => ?_⟩
    obtain ⟨k,hk,rfl⟩ := List.mem_map.mp hn
    obtain rfl := List.mem_singleton.mp hm
    exact Nat.ne_of_lt (h.below k hk)
  · intro k hk
    rw [List.map_append,List.mem_append] at hk
    rcases hk with hk | hk
    · exact Nat.lt_succ_of_lt (h.below k hk)
    · obtain rfl := List.mem_singleton.mp hk
      exact Nat.lt_succ_self _
  · exact fun rows' as' task' hr => { hon.applying rows' as' task' hr with }

/-- The refresh completes: what failed and is not desired is forgotten. -/
lemma Inv.complete {s : Supervisor} (h : Inv s) {rows : List SourceRow}
    (hs : s.refresh = .applying rows [] .next) :
    Inv { s with
      failed := s.failed.filter fun id _ => rows.any (·.sourceId == id)
      refresh := .idle
      settled := some rows } := by
  have happlying := h.applying _ _ _ hs
  have hat : ∀ id, s.MatchesAt rows id := by
    intro id
    exact happlying.covered.resolve_left (fun hdown => hdown.2.1 rfl) id (by simp [RefreshTask.source])
  have hfilter : ∀ id, (s.failed.filter fun id _ => rows.any (·.sourceId == id)).get? id =
      if rows.any (·.sourceId == id) then s.failed.get? id else none := by
    intro id
    rw [AssocMap.get?_filter]
    split_ifs with hany <;> cases s.failed.get? id <;> simp [hany]
  have hleft := h.leave (by simp [hs,RefreshPhase.held,RefreshTask.held])
  refine { hleft with apart := fun id hrun => ?_, applying := ?_, settled := ?_ }
  · dsimp only
    rw [hfilter]
    split_ifs
    · exact h.apart id hrun
    · rfl
  · exact fun rows as task hr => by cases hr
  · intro rows' hrows'
    obtain rfl := Option.some.inj hrows'
    refine ⟨by simp,happlying.valid,fun row hrow => ?_,fun id hid => ?_⟩
    · refine ((hat row.sourceId).1 row hrow rfl).imp_right fun ⟨r,hr,he⟩ => ⟨r,?_,he⟩
      dsimp only
      rw [hfilter,if_pos (List.any_eq_true.mpr ⟨row,hrow,by simp⟩)]
      exact hr
    · by_contra hno
      have hno : ∀ row ∈ rows, row.sourceId ≠ id := fun row hrow he => hno ⟨row,hrow,he⟩
      rcases hid with hid | hid
      · simp [(hat id).2 hno] at hid
      · dsimp only at hid
        rw [hfilter,if_neg (by simpa using hno)] at hid
        simp at hid

lemma Inv.fetched {s : Supervisor} (h : Inv s) {rows : List SourceRow} (hs : s.refresh = .fetching)
    (hvalid : validRows rows) :
    Inv { s with refresh := .applying rows (s.plan rows) .next, settled := none } := by
  have hfree : s.closing = none := by
    cases hc : s.closing with
    | none => rfl
    | some ws => exact absurd (hs.symm.trans (h.closing ws hc).1) (by simp)
  refine { h with owned := ?_, applying := ?_, closing := ?_, settled := by simp }
  · intro k hk
    refine (h.owned k hk).imp_right (Or.imp_left fun hheld => ?_)
    simp [hs,RefreshPhase.held] at hheld
  · intro rows' as task hr
    obtain ⟨rfl,rfl,rfl⟩ := RefreshPhase.applying.inj hr
    exact { applying_plan hfree hvalid h.apart with }
  · intro ws hws
    simp [hfree] at hws

lemma Inv.begin_ {s : Supervisor} (h : Inv s) (hidle : s.refresh = .idle) (hfree : s.closing = none) :
    Inv { s with refresh := .fetching } :=
  { h with
    owned := fun k hk => (h.owned k hk).imp_right (Or.imp_left (by simp [hidle,RefreshPhase.held]))
    applying := fun rows as task hr => by cases hr
    closing := fun ws hws => by simp [hfree] at hws
    settled := fun rows hrows => ⟨by simp,(h.settled rows hrows).2⟩ }

/-- `shutdown_all` takes the running table over. -/
lemma Inv.takeAll {s : Supervisor} (h : Inv s) (hidle : s.refresh = .idle) (hfree : s.closing = none) :
    Inv { s with
      closing := some (s.running.entries.map fun e => (e.1,e.2.2))
      running := .empty
      settled := none } := by
  refine { h with owned := ?_, apart := by simp, applying := ?_, closing := ?_, settled := by simp }
  · intro k hk
    rcases h.owned k hk with ⟨row,hrow⟩ | hheld | ⟨ws,hws,-⟩
    · exact .inr (.inr ⟨_,rfl,List.mem_map.mpr ⟨_,(AssocMap.mem_entries _ _ _).mpr hrow,rfl⟩⟩)
    · simp [hidle,RefreshPhase.held] at hheld
    · simp [hfree] at hws
  · intro rows as task hr
    exact absurd (hidle.symm.trans hr) (by simp)
  · intro ws hws
    obtain rfl := Option.some.inj hws
    refine ⟨hidle,fun id => rfl,?_⟩
    rw [List.map_map]
    exact s.running.nodup_keys

/-- A worker that `shutdown_all` held has ended. -/
lemma Inv.setClosing {s : Supervisor} (h : Inv s) {ws : List (String × ℕ)} (hs : s.closing = some ws)
    (closing : Option (List (String × ℕ)))
    (hsub : ∀ ws' ∈ closing, (ws'.map Prod.fst).Sublist (ws.map Prod.fst))
    (hgone : ∀ k ∈ ws, (∃ ws' ∈ closing, k ∈ ws') ∨ s.Gone k.2) :
    Inv { s with closing := closing } := by
  obtain ⟨hidle,hnone,hnodup⟩ := h.closing ws hs
  refine { h with owned := ?_, applying := ?_, closing := ?_ }
  · intro k hk
    rcases h.owned k hk with hrun | hheld | ⟨ws',hws',hmem⟩
    · exact .inl hrun
    · exact .inr (.inl hheld)
    · obtain rfl := Option.some.inj (hs.symm.trans hws')
      rcases hgone k hmem with hin | hgone
      · exact .inr (.inr hin)
      · obtain ⟨w,hw,rfl⟩ := List.mem_map.mp hk
        exact absurd rfl (hgone w hw)
  · intro rows as task hr
    exact absurd (hidle.symm.trans hr) (by simp)
  · exact fun ws' hws' => ⟨hidle,hnone,(hsub ws' hws').nodup hnodup⟩

lemma inv_step {s t : Supervisor} {a : Act} (h : Inv s) (hallowed : s.Allowed a) (hst : Step s a t) :
    Inv t := by
  cases hst with
  | begin_ hidle hfree hup => exact h.begin_ hidle hfree
  | fetchFails hs => exact h.leave (by simp [hs,RefreshPhase.held])
  | fetched hs hvalid hup => exact h.fetched hs hvalid
  | bail hs hdown => exact h.leave (by simp [hs,RefreshPhase.held,RefreshTask.held])
  | takeStop hs hup hrunning => exact h.takeStop hs hup hrunning
  | skipStop hs hup hrunning =>
    exact h.takeAbsent hs hup hrunning _ rfl (by simp) (by simp [RefreshTask.row])
  | joinStop hs hgone =>
    exact h.goOn hs (by simp) _ rfl (by simp) (by simp [RefreshTask.row]) (by simpa [RefreshTask.held])
  | forgetFailed hs => exact h.forgetFailed hs
  | takeRestart hs hup hrunning => exact h.takeRestart hs hup hrunning
  | skipRestart hs hup hrunning =>
    exact h.takeAbsent hs hup hrunning _ rfl (by simp) (by simp [RefreshTask.row])
  | markRestarting hs => exact h.markRestarting hs
  | joinRestart hs hgone =>
    exact h.goOn hs (by simp) _ rfl (by simp) (fun _ hr => hr) (by simpa [RefreshTask.held])
  | takeStart hs hup =>
    exact h.takeAbsent hs hup ((h.applying _ _ _ hs).starts _ (.head _)) _ rfl (by simp)
      (by simp [RefreshTask.row])
  | spawn hs => exact h.spawn hs
  | refuse hs => exact h.goOn hs (by simp) _ rfl (by simp) (fun _ hr => hr) (by simp [RefreshTask.held])
  | leaveLaunch hs hdown => exact h.giveUp hs (by simp) (by simp [RefreshTask.held]) hdown hallowed
  | ready hs hready => exact h.goOn hs (by simp) _ rfl (by simp) (fun _ hr => hr) fun _ hk => .inl hk
  | bootFailed hs hnot hgone =>
    exact h.goOn hs (by simp) _ rfl (by simp) (fun _ hr => hr) (by simpa [RefreshTask.held])
  | install hs => exact h.install hs
  | @undo rows row as wid hs hdown =>
    have hon := h.goOn hs (by simp) (.undoing row wid) rfl (by simp) (fun _ hr => hr) fun _ hk => .inl hk
    exact hon.setWorkers _ _ ((keys_tell s wid).symm ▸ List.Sublist.refl _)
  | undone hs hdown hgone =>
    exact h.giveUp hs (by simp) (by simpa [RefreshTask.held]) hdown hallowed
  | recordFailed hs => exact h.recordFailed hs
  | leaveFailed hs hdown => exact h.giveUp hs (by simp) (by simp [RefreshTask.held]) hdown hallowed
  | complete hs => exact h.complete hs
  | cancel => exact h.leave hallowed
  | shutDown =>
    refine { h with applying := fun rows as task hr => ?_ }
    have happlying := h.applying rows as task hr
    exact { happlying with covered := happlying.covered.imp_left fun hdown => ⟨rfl,hdown.2⟩ }
  | takeAll hdown hidle hfree => exact h.takeAll hidle hfree
  | @tellNext id wid rest hs => exact h.setWorkers _ _ ((keys_tell s wid).symm ▸ List.Sublist.refl _)
  | @joinNext id wid rest hs hgone =>
    refine h.setClosing hs _ (fun ws' hws' => ?_) fun k hk => ?_
    · exact Option.some.inj hws' ▸ (List.sublist_cons_self _ _).map _
    · rcases List.mem_cons.mp hk with rfl | hk
      · exact .inr hgone
      · exact .inl ⟨rest,rfl,hk⟩
  | closed hs => exact h.setClosing hs none (by simp) (by simp)
  | @booted w before after hs hboot =>
    refine h.setWorkers _ _ ?_
    rw [hs,List.map_append,List.map_append]
    exact List.Sublist.refl _
  | @exits w before after hs =>
    refine h.setWorkers _ _ ?_
    rw [hs,List.map_append,List.map_append]
    exact (List.Sublist.refl _).append (List.sublist_cons_self _ _)

lemma inv_of_guarded {s : Supervisor} (h : GuardedSteps new s) : Inv s := by
  induction h with
  | refl => exact inv_new
  | tail _ hst ih =>
    obtain ⟨a,hallowed,hst⟩ := hst
    exact inv_step ih hallowed hst

/-- Whoever owns a source's worker, it is the only one. -/
lemma Inv.owns_unique {s : Supervisor} (h : Inv s) {id : String} {wid wid' : ℕ} (ho : s.Owns id wid)
    (ho' : s.Owns id wid') : wid = wid' := by
  cases hc : s.closing with
  | some ws =>
    obtain ⟨hidle,hnone,hnodup⟩ := h.closing ws hc
    simp only [Owns,hidle,hnone,hc,RefreshPhase.held] at ho ho'
    simp only [reduceCtorEq,exists_false,List.not_mem_nil,false_or,Option.mem_some_iff,exists_eq_left'] at ho ho'
    exact (Prod.mk.inj (List.inj_on_of_nodup_map hnodup ho ho' rfl)).2
  | none =>
    cases hr : s.refresh with
    | applying rows as task =>
      have happlying := h.applying _ _ _ hr
      rw [owns_iff hr hc] at ho ho'
      have hheld : ∀ w, (id,w) ∈ task.held → s.running.get? id = none :=
        fun w hw => happlying.working id (mem_source_of_held hw)
      rcases ho with ⟨r,ho⟩ | ho
      · rcases ho' with ⟨r',ho'⟩ | ho'
        · exact (Prod.mk.inj (Option.some.inj (ho.symm.trans ho'))).2
        · simp [hheld _ ho'] at ho
      · rcases ho' with ⟨r',ho'⟩ | ho'
        · simp [hheld _ ho] at ho'
        · cases task <;> simp_all [RefreshTask.held]
    | _ =>
      simp only [Owns,hr,hc,RefreshPhase.held,List.not_mem_nil,Option.mem_def,reduceCtorEq,false_and,
        exists_false,or_false] at ho ho'
      obtain ⟨r,ho⟩ := ho
      obtain ⟨r',ho'⟩ := ho'
      exact (Prod.mk.inj (Option.some.inj (ho.symm.trans ho'))).2

/-- After a refresh that completed, another one with the same rows only starts sources that failed. -/
lemma Inv.replan {s : Supervisor} (h : Inv s) {rows : List SourceRow} (hs : rows ∈ s.settled)
    {a : PlanAction} (ha : a ∈ s.plan rows) :
    ∃ row, a = .start row ∧ (s.failed.get? row.sourceId).isSome := by
  obtain ⟨-,hvalid,hat,honly⟩ := h.settled rows hs
  rcases (mem_plan hvalid h.apart a).mp ha with
    ⟨id,r,wid,hr,⟨hno,-⟩ | ⟨row,hrow,rfl,hne,-⟩⟩ | ⟨row,hrow,hnone,rfl⟩
  · obtain ⟨row,hrow,he⟩ := honly id (.inl (by simp [hr]))
    exact absurd he (hno row hrow)
  · rcases hat row hrow with ⟨r',wid',hr',he⟩ | ⟨r',hr',-⟩
    · obtain ⟨rfl,-⟩ := Prod.mk.inj (Option.some.inj (hr.symm.trans hr'))
      exact absurd he.symm hne
    · simp [h.apart row.sourceId (by simp [hr])] at hr'
  · rcases hat row hrow with ⟨r',wid',hr',-⟩ | ⟨r',hr',-⟩
    · simp [hnone] at hr'
    · exact ⟨row,rfl,by simp [hr']⟩

/-- In a run whose steps meet the condition every source has at most one live worker, which the tables or
whoever works on them know; and once a refresh has completed, the tables are the desired ones, and a
refresh with the same rows leaves every running source alone. -/
theorem one_worker {s : Supervisor} (h : GuardedSteps new s) :
    (∀ w ∈ s.workers, ∀ w' ∈ s.workers, w.row.sourceId = w'.row.sourceId → w = w') ∧
    (∀ w ∈ s.workers, s.Owns w.row.sourceId w.wid) ∧
    ∀ rows ∈ s.settled, s.Matches rows ∧
      ∀ a ∈ s.plan rows, ∃ row, a = .start row ∧ (s.failed.get? row.sourceId).isSome := by
  have hinv := inv_of_guarded h
  have howned : ∀ w ∈ s.workers, s.Owns w.row.sourceId w.wid :=
    fun w hw => hinv.owned w.key (List.mem_map.mpr ⟨w,hw,rfl⟩)
  refine ⟨fun w hw w' hw' he => ?_,howned,fun rows hrows => ⟨(hinv.settled rows hrows).2.2,fun a ha => ?_⟩⟩
  · have hwid := hinv.owns_unique (howned w hw) (he ▸ howned w' hw')
    have hnodup := hinv.wids
    rw [List.map_map] at hnodup
    exact List.inj_on_of_nodup_map hnodup hw hw' hwid
  · exact hinv.replan hrows ha

lemma GuardedSteps.other {s t u : Supervisor} (h : GuardedSteps s t) (hst : Step t .other u) :
    GuardedSteps s u := h.tail ⟨.other,trivial,hst⟩

lemma GuardedSteps.steps {s t : Supervisor} (h : GuardedSteps s t) : Steps s t := by
  induction h with
  | refl => exact .refl
  | tail _ hst ih => exact ih.tail (hst.imp fun _ h => h.2)

/-- A refresh starts a source, and the worker boots. -/
lemma sample_starting (s : Supervisor) (hs : s.plan [⟨"a",1⟩] = [.start ⟨"a",1⟩])
    (hidle : s.refresh = .idle) (hfree : s.closing = none) (hup : s.shutdown = false) :
    GuardedSteps s { s with
      workers := s.workers ++ [⟨s.nextWorker,⟨"a",1⟩,.booting⟩]
      nextWorker := s.nextWorker+1
      refresh := .applying [⟨"a",1⟩] [] (.starting ⟨"a",1⟩ s.nextWorker)
      settled := none } := by
  have hfetched := (GuardedSteps.other .refl (.begin_ s hidle hfree hup)).other
    (@Step.fetched _ [⟨"a",1⟩] rfl (List.nodup_singleton _) hup)
  have hplan : ({ s with refresh := .fetching } : Supervisor).plan [⟨"a",1⟩] = [.start ⟨"a",1⟩] := hs
  rw [hplan] at hfetched
  exact (hfetched.other (.takeStart _ rfl hup)).other (.spawn _ rfl)

/-- The source runs after the refresh. -/
def sampleSettled : Supervisor :=
  { new with
    running := AssocMap.empty.insert "a" (⟨"a",1⟩,0)
    workers := [⟨0,⟨"a",1⟩,.serving⟩]
    nextWorker := 1
    announced := [0]
    settled := some [⟨"a",1⟩] }

theorem sample_one_worker : sampleSettled.Owns "a" 0 ∧ sampleSettled.Matches [⟨"a",1⟩] := by
  have hready := (sample_starting new rfl rfl rfl rfl).other (@Step.booted _ ⟨0,⟨"a",1⟩,.booting⟩ [] [] rfl rfl)
    |>.other (.ready _ rfl (.head _))
  have hrun : GuardedSteps new sampleSettled := (hready.other (.install _ rfl)).other (.complete _ rfl)
  obtain ⟨-,howned,hsettled⟩ := one_worker hrun
  exact ⟨howned ⟨0,⟨"a",1⟩,.serving⟩ (.head _),(hsettled [⟨"a",1⟩] rfl).1⟩

/-- The refresh is dropped while it waits for the worker, and the next one starts another. -/
theorem sample_two_workers : ¬∀ s, Steps new s →
    ∀ w ∈ s.workers, ∀ w' ∈ s.workers, w.row.sourceId = w'.row.sourceId → w = w' := by
  intro h
  have hdropped := (sample_starting new rfl rfl rfl rfl).steps.tail ⟨_,.cancel _⟩
  have hagain := hdropped.trans (sample_starting _ rfl rfl rfl rfl).steps
  have heq := h _ hagain ⟨0,⟨"a",1⟩,.booting⟩ (.head _) ⟨1,⟨"a",1⟩,.booting⟩ (.tail _ (.head _)) rfl
  exact absurd (congrArg SourceWorker.wid heq) (by decide)

end Supervisor
end ElectricCircuits
