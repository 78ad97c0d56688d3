import ElectricCircuits.Catalog.Fold
import ElectricCircuits.Catalog.Writer

/-! Concurrent creates and joins, with their rollback and cancellation guards, and the releases, lease
sweeps, retirements, dormancies and reactivations that run between their awaits. -/
namespace ElectricCircuits

/-- What a creator publishes to the joiners of its shape. -/
inductive ShareOutcome where
  | pending
  | ready
  | failed
  | degraded
  | raced
  deriving DecidableEq

/-- A shape's life, without the time of its last read. -/
inductive ShapeLife where
  | active
  | deactivating
  | dormant (parked : Parked)
  | reactivating (resume : LogPosition) (attempt : ℕ)

inductive WakePhase where
  | running
  | recorded
  | over (ok : Bool)
  deriving DecidableEq

/-- A detached reactivation. -/
structure Wake where
  shape : String
  parked : Parked
  phase : WakePhase

/-- What a create or a join waits for: a create its own work and the closing checks, a join the
creator, then `ensure_active`, then the closing checks. A failed request waits for the lock to roll
back, and so does the task that a cancelled one leaves behind. -/
inductive RequestPhase where
  | working
  | awaiting
  | waking (attempt : Option ℕ)
  | closing
  | checked
  | rollingBack
  | detached
  | answered
  | over
  deriving DecidableEq

/-- A create or a join with its guard. A join is fresh if it took a new claim. The claim stands until
the subscription is released or lapses or the shape is retired. -/
structure Request where
  creates : Bool
  aggregate : Bool
  shape : String
  sub : String
  sig : String
  fresh : Bool
  phase : RequestPhase
  stands : Bool
  deriving DecidableEq

namespace Request

/-- Does a failure or a cancellation give something back? -/
def armed (r : Request) : Bool := r.creates || r.fresh

/-- Can the request still fail, or be cancelled before it fails? -/
def unfinished (r : Request) : Bool :=
  match r.phase with
  | .working | .awaiting | .waking _ | .closing => true
  | _ => false

def undoing (r : Request) : Bool := r.phase = .rollingBack || r.phase = .detached

end Request

/-- What a success told its client: the subscription is on a shape of this signature. -/
structure Claim where
  shape : String
  sub : String
  sig : String
  deriving DecidableEq

/-- What a task does after it released the state lock. -/
inductive Late where
  | left (shape sub : String)
  | rolledBack (id : String) (existed : Bool)
  | dormant (id : String) (parked : Parked)

inductive EvictReason where
  | dormantTtl
  | maxShapes
  | diskBudget
  | changeLogRetention
  | replayBudget
  deriving DecidableEq

/-- The replay of a dormant shape is not possible any more. -/
def EvictReason.replay : EvictReason → Bool
  | .changeLogRetention | .replayBudget => true
  | _ => false

/-- The engine. A creator's channel has no outcome when the creator went away before it told one.
`promised` lists the acknowledged claims that stand, `polled` the local renewals. -/
structure Engine (D : Type*) where
  st : EngineState D
  lives : AssocMap String ShapeLife
  outcomes : String → Option ShareOutcome
  wakes : List Wake
  requests : List Request
  late : List Late
  catalog : CatalogWriter (CatalogEvent D)
  promised : List Claim
  polled : List (String × String)

/-- What the conditions on runs are about. -/
inductive Action where
  | create (logged now : ℕ)
  | join (shape sub : String)
  | undo (k : ℕ)
  | renewLocal (shape sub : String)
  | resumed (attempt : ℕ)
  | other

namespace Engine
variable {D : Type*}

def send (e : Engine D) (ev : CatalogEvent D) (done : Bool) : Engine D :=
  { e with catalog := e.catalog.send ev done }

def sendIf (e : Engine D) (b : Bool) (ev : CatalogEvent D) (done : Bool) : Engine D :=
  if b then e.send ev done else e

lemma exists_sendIf (e : Engine D) (b : Bool) (ev : CatalogEvent D) (done : Bool) :
    ∃ c, e.sendIf b ev done = { e with catalog := c } := by
  unfold sendIf
  split_ifs
  · exact ⟨_,rfl⟩
  · exact ⟨e.catalog,rfl⟩

def setRequest (e : Engine D) (k : ℕ) (r : Request) : Engine D :=
  { e with requests := e.requests.set k r }

def setPhase (e : Engine D) (k : ℕ) (r : Request) (phase : RequestPhase) : Engine D :=
  e.setRequest k { r with phase }

/-- The claims that a release, a lapse or a retirement ends, acknowledged ones and those of requests
under way. -/
def endClaims (e : Engine D) (ends : String → String → Bool) : Engine D :=
  { e with
    requests := e.requests.map fun r => { r with stands := r.stands && !ends r.shape r.sub }
    promised := e.promised.filter fun c => !ends c.shape c.sub }

/-- The record that a create makes. -/
def newRecord (e : Engine D) (changesOnly isSubquery aggregate : Bool) (definition : D) :
    ShapeRecord D :=
  let id := shapeId e.st.nextShapeId
  ⟨id,"shape/" ++ id,changesOnly,isSubquery,aggregate,none,definition⟩

/-- A create registers its shape and its subscription in one critical section. The catalog's time and
the lease's are two readings of the clock. -/
def create (e : Engine D) (rec : ShapeRecord D) (sig sub : String) (logged now : ℕ) : Engine D :=
  send { e with
    st := e.st.register rec sig sub now
    lives := e.lives.insert rec.id .active
    outcomes := Function.update e.outcomes rec.id (some .pending)
    requests := e.requests ++ [⟨true,rec.aggregate,rec.id,sub,sig,true,.working,true⟩] }
    (.created rec (some sig) sub logged) true

/-- A join takes a claim or renews it. -/
def join (e : Engine D) (rec : ShapeRecord D) (id sig sub : String) (now : ℕ) : Engine D :=
  let fresh := (e.st.subscribe id sub now).2
  send { e with
    st := (e.st.subscribe id sub now).1
    requests := e.requests ++ [⟨false,rec.aggregate,id,sub,sig,fresh,.awaiting,true⟩] }
    (.joined id sub now) fresh

/-- The first touch of a dormant shape starts its reactivation. -/
def touch (e : Engine D) (id : String) (parked : Parked) : Engine D :=
  { e with
    lives := e.lives.insert id (.reactivating parked.resume e.wakes.length)
    wakes := e.wakes ++ [⟨id,parked,.running⟩] }

/-- The life of a shape that is still tracked. -/
def setLife (e : Engine D) (id : String) (life : ShapeLife) : Engine D :=
  { e with lives := if (e.lives.get? id).isSome then e.lives.insert id life else e.lives }

lemma lives_setLife (e : Engine D) (id id' : String) (life : ShapeLife) :
    (e.setLife id life).lives.get? id' =
      if id = id' then (e.lives.get? id).map fun _ => life else e.lives.get? id' := by
  unfold setLife
  cases hlife : e.lives.get? id with
  | none =>
    simp only [Option.isSome_none,Bool.false_eq_true,if_false,Option.map_none]
    split_ifs with hid
    · rw [← hid,hlife]
    · rfl
  | some old => simp [AssocMap.get?_insert]

def setWake (e : Engine D) (j : ℕ) (w : Wake) (phase : WakePhase) : Engine D :=
  { e with wakes := e.wakes.set j { w with phase } }

/-- A success. -/
def answer (e : Engine D) (k : ℕ) (r : Request) : Engine D :=
  { e.setPhase k r .answered with
    outcomes := if r.creates then Function.update e.outcomes r.shape (some .ready) else e.outcomes
    promised := if r.stands then e.promised ++ [⟨r.shape,r.sub,r.sig⟩] else e.promised }

/-- A failure, and what its creator tells the joiners. -/
def fail (e : Engine D) (k : ℕ) (r : Request) (outcome : ShareOutcome) : Engine D :=
  { e.setPhase k r (if r.armed then .rollingBack else .over) with
    outcomes := if r.creates then Function.update e.outcomes r.shape (some outcome) else e.outcomes }

/-- The client goes away before the request has failed. -/
def cancel (e : Engine D) (k : ℕ) (r : Request) : Engine D :=
  { e.setPhase k r (if r.armed then .detached else .over) with
    outcomes := if r.creates then Function.update e.outcomes r.shape none else e.outcomes }

/-- A join's guard gives its claim back, as any release inside the engine. -/
def undo (e : Engine D) (k : ℕ) (r : Request) : Engine D :=
  sendIf { e.setPhase k r .over with st := (e.st.unsubscribe r.shape r.sub).1 }
    (e.st.unsubscribe r.shape r.sub).2 (.left r.shape r.sub false) false

/-- The tables' part of `rollback_create`. -/
def undoCreate (e : Engine D) (k : ℕ) (r : Request) : Engine D :=
  { e.setPhase k r .over with
    st := e.st.rollbackCreate r.shape
    late := e.late ++ [.rolledBack r.shape (e.st.shapes.get? r.shape).isSome] }

def finish (e : Engine D) (rest : List Late) : Late → Engine D
  | .left shape sub => send { e with late := rest } (.left shape sub true) false
  | .rolledBack id existed =>
    sendIf { e with late := rest, lives := e.lives.erase id } existed (.dropped id) false
  | .dormant id parked => send { e with late := rest } (.dormant id parked) false

def release (e : Engine D) (shape sub : String) (durable : Bool) : Engine D :=
  (sendIf { e with st := (e.st.unsubscribe shape sub).1 } (e.st.unsubscribe shape sub).2
    (.left shape sub false) durable).endClaims fun id x => id == shape && x == sub

/-- A poll of an adapter renews the claim of its handle and tells the catalog nothing. -/
def renewLocal (e : Engine D) (shape sub : String) (now : ℕ) : Engine D :=
  { e with st := (e.st.subscribe shape sub now).1, polled := e.polled ++ [(shape,sub)] }

def sweepLeases (e : Engine D) (window now : ℕ) : Engine D :=
  let expired := e.st.lapsedSubscriptions window now
  endClaims { e with
    st := e.st.unsubscribeAll expired
    late := e.late ++ expired.map fun p => .left p.1 p.2 } fun id x => (id,x) ∈ expired

/-- What a purge and an eviction do under the lock. -/
def retire (e : Engine D) (id : String) (durable : Bool) : Engine D :=
  (sendIf { e with st := e.st.retire id, lives := e.lives.erase id } (e.st.shapes.get? id).isSome
    (.dropped id) durable).endClaims fun id' _ => id' == id

/-- The checks of `evict_shape`; how long an active shape was idle is left open. -/
def Evictable (e : Engine D) (id : String) (reason : EvictReason) : Prop :=
  ∃ rec, e.st.shapes.get? id = some rec ∧
    ((∃ parked, e.lives.get? id = some (.dormant parked)) ∧
        (reason.replay = true ∨ e.st.refcount id = 0) ∨
      e.lives.get? id = some .active ∧ rec.parkable = false ∧ e.st.refcount id = 0)

/-- One critical section or channel operation of a task. A request that is refused changes nothing; the
waits on storage, on the sequencer and on the clock end at any time. -/
inductive Step : Engine D → Action → Engine D → Prop where
  /-- A create that fails before it registered has used up an id. -/
  | mint (e : Engine D) :
    Step e .other { e with st := { e.st with nextShapeId := e.st.nextShapeId+1 } }
  | create (e : Engine D) (changesOnly isSubquery aggregate : Bool) (definition : D)
    {sig sub : String} (logged now : ℕ)
    (hsig : ∀ id, e.st.feedBySig.get? sig = some id → e.st.shapes.get? id = none)
    (hfree : e.st.subscriptionFree sub "" = true) :
    Step e (.create logged now)
      (e.create (e.newRecord changesOnly isSubquery aggregate definition) sig sub logged now)
  | join (e : Engine D) {sig sub id : String} {rec : ShapeRecord D} (now : ℕ)
    (hsig : e.st.feedBySig.get? sig = some id) (hrec : e.st.shapes.get? id = some rec)
    (hfree : e.st.subscriptionFree sub id = true) :
    Step e (.join id sub) (e.join rec id sig sub now)
  | shareReady (e : Engine D) {k : ℕ} {r : Request} (hr : e.requests[k]? = some r)
    (hphase : r.phase = .awaiting) (hready : e.outcomes r.shape = some .ready) :
    Step e .other (e.setPhase k r (if r.aggregate then .closing else .waking none))
  | lookActive (e : Engine D) {k : ℕ} {r : Request} (hr : e.requests[k]? = some r)
    (hphase : r.phase = .waking none)
    (hlife : e.lives.get? r.shape = none ∨ e.lives.get? r.shape = some .active) :
    Step e .other (e.setPhase k r .closing)
  | lookReactivating (e : Engine D) {k j : ℕ} {r : Request} {resume : LogPosition}
    (hr : e.requests[k]? = some r) (hphase : r.phase = .waking none)
    (hlife : e.lives.get? r.shape = some (.reactivating resume j)) :
    Step e .other (e.setPhase k r (.waking (some j)))
  | lookDormant (e : Engine D) {k : ℕ} {r : Request} {parked : Parked}
    (hr : e.requests[k]? = some r) (hphase : r.phase = .waking none)
    (hlife : e.lives.get? r.shape = some (.dormant parked)) :
    Step e .other ((e.touch r.shape parked).setPhase k r (.waking (some e.wakes.length)))
  | woken (e : Engine D) {k j : ℕ} {r : Request} {w : Wake} (hr : e.requests[k]? = some r)
    (hphase : r.phase = .waking (some j)) (hw : e.wakes[j]? = some w)
    (hok : w.phase = .over true) : Step e .other (e.setPhase k r .closing)
  | recheck (e : Engine D) {k : ℕ} {r : Request} (hr : e.requests[k]? = some r)
    (hphase : r.phase = if r.creates then .working else .closing)
    (hshape : e.st.shapes.get? r.shape ≠ none) : Step e .other (e.setPhase k r .checked)
  | answer (e : Engine D) {k : ℕ} {r : Request} (hr : e.requests[k]? = some r)
    (hphase : r.phase = .checked) : Step e .other (e.answer k r)
  | fail (e : Engine D) {k : ℕ} {r : Request} {outcome : ShareOutcome}
    (hr : e.requests[k]? = some r) (hphase : r.unfinished = true)
    (houtcome : outcome ≠ .pending ∧ outcome ≠ .ready) : Step e .other (e.fail k r outcome)
  | cancel (e : Engine D) {k : ℕ} {r : Request} (hr : e.requests[k]? = some r)
    (hphase : r.unfinished = true) : Step e .other (e.cancel k r)
  /-- A guard that rolls back in place is disarmed: a cancellation leaves what it holds. -/
  | abandon (e : Engine D) {k : ℕ} {r : Request} (hr : e.requests[k]? = some r)
    (hphase : r.phase = .rollingBack) : Step e .other (e.setPhase k r .over)
  | undo (e : Engine D) {k : ℕ} {r : Request} (hr : e.requests[k]? = some r)
    (hphase : r.undoing = true) (hjoin : r.creates = false) : Step e (.undo k) (e.undo k r)
  | undoCreate (e : Engine D) {k : ℕ} {r : Request} (hr : e.requests[k]? = some r)
    (hphase : r.undoing = true) (hcreate : r.creates = true) : Step e .other (e.undoCreate k r)
  | finish (e : Engine D) {l : Late} {before after : List Late} (hlate : e.late = before ++ l::after) :
    Step e .other (e.finish (before ++ after) l)
  | backfillSized (e : Engine D) {k : ℕ} {r : Request} (rows bytes : ℕ)
    (hr : e.requests[k]? = some r) (hphase : r.phase = .working) :
    Step e .other (e.send (.backfillSized r.shape rows bytes) true)
  | release (e : Engine D) (shape sub : String) (durable : Bool) :
    Step e .other (e.release shape sub durable)
  | releaseAnonymous (e : Engine D) {shape sub : String} (durable : Bool)
    (hvictim : e.st.anonymousVictim shape = some sub) : Step e .other (e.release shape sub durable)
  | renewLocal (e : Engine D) (shape sub : String) (now : ℕ) :
    Step e (.renewLocal shape sub) (e.renewLocal shape sub now)
  | sweepLeases (e : Engine D) (window now : ℕ) : Step e .other (e.sweepLeases window now)
  | purge (e : Engine D) (id : String) (durable : Bool) : Step e .other (e.retire id durable)
  | evict (e : Engine D) {id : String} {reason : EvictReason} (h : e.Evictable id reason) :
    Step e .other (e.retire id false)
  | deactivate (e : Engine D) {id : String} {rec : ShapeRecord D}
    (hrec : e.st.shapes.get? id = some rec) (hpark : rec.parkable = true)
    (hsubs : e.st.refcount id = 0) (hlife : e.lives.get? id = some .active) :
    Step e .other (e.setLife id .deactivating)
  | deactivated (e : Engine D) {id : String} (parked : Parked)
    (hlife : e.lives.get? id = some .deactivating) :
    Step e .other { e.setLife id (.dormant parked) with late := e.late ++ [.dormant id parked] }
  | stayActive (e : Engine D) {id : String} (hlife : e.lives.get? id = some .deactivating) :
    Step e .other (e.setLife id .active)
  | touch (e : Engine D) {id : String} {parked : Parked}
    (hlife : e.lives.get? id = some (.dormant parked)) : Step e .other (e.touch id parked)
  | resumed (e : Engine D) {j : ℕ} {w : Wake} (hw : e.wakes[j]? = some w)
    (hphase : w.phase = .running) :
    Step e (.resumed j) ((e.setWake j w .recorded).send (.reactivated w.shape) false)
  | wokeUp (e : Engine D) {j : ℕ} {w : Wake} (hw : e.wakes[j]? = some w)
    (hphase : w.phase = .recorded) :
    Step e .other ((e.setWake j w (.over true)).setLife w.shape .active)
  | stayDormant (e : Engine D) {j : ℕ} {w : Wake} (hw : e.wakes[j]? = some w)
    (hphase : w.phase = .running) :
    Step e .other ((e.setWake j w (.over false)).setLife w.shape (.dormant w.parked))
  /-- The retirement queue, and what the catalog records apart from shapes. -/
  | sendOther (e : Engine D) {ev : CatalogEvent D} (done : Bool)
    (hev : ev = .elsewhere ∨ ∃ id, ev = .retired id) : Step e .other (e.send ev done)
  /-- The catalog writer goes on, or a durability wait begins or ends. -/
  | write (e : Engine D) {c : CatalogWriter (CatalogEvent D)} (hc : CatalogWriter.Step e.catalog c)
    (hsent : c.taken = e.catalog.taken ∧ c.sent = e.catalog.sent) :
    Step e .other { e with catalog := c }

end Engine
end ElectricCircuits
