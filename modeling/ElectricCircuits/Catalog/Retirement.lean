import ElectricCircuits.Catalog.Ordered

/-! The retirement of streams: the ids that the engine mints, the tasks that drop shapes and delete
their streams, the queue that goes on where storage refuses a delete, and the boots that find both
again in the catalog. -/
namespace ElectricCircuits

/-- A stream that the queue has to retire, and the shape whose `Retired` it records then. -/
structure Retirement where
  streamPath : String
  shapeId : Option String
  attempt : ℕ
  deriving DecidableEq

/-- A task that retires the stream of a shape which it has removed. An inline one runs in the future
of the request, or of the boot, that dropped the shape, and ends with it. One that awaits does not
begin before its `Dropped` is stored. -/
structure Dropper where
  streamPath : String
  shapeId : Option String
  inline : Bool
  awaits : Bool
  deriving DecidableEq

/-- The catalog, the registered shapes and all that may retire a stream. A create holds the state lock
from `minting` its id until it registers its record, and is among `creates` until it is over. `minted`
and `deleted` list the ids' numbers and the streams of all processes. -/
structure Retiring (D : Type*) where
  earlier : List ((String × ℕ) × CatalogEvent D)
  nonce : String
  catalog : CatalogWriter (CatalogEvent D)
  nextShapeId : ℕ
  minting : Option ℕ
  shapes : AssocMap String (ShapeRecord D)
  creates : List (ShapeRecord D)
  droppers : List Dropper
  queue : List Retirement
  rx : List Retirement
  worker : Option Retirement
  read : Option (CatalogFold D)
  restoring : Option (List String)
  restored : Bool
  minted : List ℕ
  deleted : List String

namespace Retiring
variable {D : Type*}

/-- The first process, with an empty catalog. -/
def init (nonce : String) : Retiring D where
  earlier := []
  nonce := nonce
  catalog := .spawn
  nextShapeId := 1
  minting := none
  shapes := .empty
  creates := []
  droppers := []
  queue := []
  rx := []
  worker := none
  read := none
  restoring := none
  restored := false
  minted := []
  deleted := []

/-- The entries of the catalog stream. An event's id is the nonce of its process with its number. -/
def stored (s : Retiring D) : List ((String × ℕ) × CatalogEvent D) :=
  s.earlier ++ s.catalog.log.map fun m => ((s.nonce,m.seq),m.ev)

def send (s : Retiring D) (ev : CatalogEvent D) (done : Bool) : Retiring D :=
  { s with catalog := s.catalog.send ev done }

/-- A delete has succeeded; the shape's `Retired` is queued, if there is a shape to record it for. -/
def retire (s : Retiring D) (streamPath : String) (shapeId : Option String) : Retiring D :=
  { s with
    catalog := match shapeId with
      | some id => s.catalog.send (.retired id) false
      | none => s.catalog
    deleted := s.deleted ++ [streamPath] }

/-- The counter is a 64-bit one. -/
def mint (s : Retiring D) : Retiring D :=
  { s with
    nextShapeId := (s.nextShapeId+1) % 2^64
    minting := some s.nextShapeId
    minted := s.minted ++ [s.nextShapeId] }

/-- The record is registered and its `Created` queued before the lock is released. -/
def register (s : Retiring D) (rec : ShapeRecord D) (sig : Option String) (sub : String) (now : ℕ) :
    Retiring D :=
  { s.send (.created rec sig sub now) true with
    minting := none
    shapes := s.shapes.insert rec.id rec
    creates := s.creates ++ [rec] }

/-- A degraded engine, a refused stream or a cancellation ends the create before it registers. -/
def abandon (s : Retiring D) : Retiring D := { s with minting := none }

/-- A create is over, and nothing that it made is undone. -/
def settle (s : Retiring D) (creates : List (ShapeRecord D)) : Retiring D := { s with creates }

/-- `Dropped` is queued as the record goes, and then the stream is retired. -/
def drop (s : Retiring D) (id : String) (rec : ShapeRecord D) (inline awaits : Bool) : Retiring D :=
  { s.send (.dropped id) awaits with
    shapes := s.shapes.erase id
    droppers := s.droppers ++ [⟨rec.streamPath,some id,inline,awaits⟩] }

/-- A create undoes what it made. Where the record is gone by then, only the stream is deleted. -/
def rollbackCreate (s : Retiring D) (rec : ShapeRecord D) (creates : List (ShapeRecord D))
    (inline : Bool) : Retiring D :=
  match s.shapes.get? rec.id with
  | some _ => { s.drop rec.id rec inline false with creates }
  | none => { s with
      creates
      droppers := s.droppers ++ [⟨rec.streamPath,none,inline,false⟩] }

def deleteDone (s : Retiring D) (d : Dropper) (droppers : List Dropper) : Retiring D :=
  { s.retire d.streamPath d.shapeId with droppers }

/-- The delete fails, and the queue takes over. -/
def handOver (s : Retiring D) (d : Dropper) (droppers : List Dropper) : Retiring D :=
  { s with droppers, rx := s.rx ++ [⟨d.streamPath,d.shapeId,0⟩] }

def cancel (s : Retiring D) (droppers : List Dropper) : Retiring D := { s with droppers }

/-- The worker drains its channel and takes the head of the queue. -/
def take (s : Retiring D) (item : Retirement) (queue : List Retirement) : Retiring D :=
  { s with worker := some item, queue, rx := [] }

def finish (s : Retiring D) (item : Retirement) : Retiring D :=
  { s.retire item.streamPath item.shapeId with worker := none }

/-- A failed head goes to the back of the queue. -/
def retry (s : Retiring D) (item : Retirement) : Retiring D :=
  { s with worker := none, queue := s.queue ++ [{ item with attempt := item.attempt+1 }] }

/-- The process ends, at any point, and another one begins on what is stored. -/
def restart (s : Retiring D) (nonce : String) : Retiring D :=
  { init nonce with earlier := s.stored, minted := s.minted, deleted := s.deleted }

def readCatalog (s : Retiring D) : Retiring D := { s with read := some (.foldEntries s.stored) }

/-- `apply_catalog`: the outstanding retirements are queued, the counter goes past every id that the
log has, and the shapes are registered again, apart from those that the boot drops. -/
def restore (s : Retiring D) (f : CatalogFold D) (keep : Restored D → Bool) : Retiring D :=
  let dead := f.recs.entries.filter fun e => !keep e.2
  { s with
    catalog := dead.foldl (fun c e => c.send (.dropped e.1) false) s.catalog
    rx := s.rx ++ f.pendingRetire.entries.map fun e => ⟨e.2,some e.1,0⟩
    nextShapeId := f.maxShapeId.elim s.nextShapeId fun top => max s.nextShapeId ((top+1) % 2^64)
    shapes := (f.recs.entries.filter fun e => keep e.2).foldl
      (fun shapes e => shapes.insert e.1 e.2.record) s.shapes
    droppers := s.droppers ++ dead.map fun e => ⟨e.2.record.streamPath,some e.1,true,false⟩
    read := none
    restoring := some f.recs.keys
    restored := false }

def restoreDone (s : Retiring D) : Retiring D := { s with restoring := none, restored := true }

/-- `rollback_catalog_restore`: a restore that fails unregisters its shapes, and the boot tries again. -/
def undoRestore (s : Retiring D) (ids : List String) : Retiring D :=
  { s with shapes := s.shapes.filter fun id _ => id ∉ ids, restoring := none }

/-- The steps that a run may be restricted in. -/
inductive Act (D : Type*) where
  | mint
  | cancel
  | restart
  | restore (f : CatalogFold D) (keep : Restored D → Bool)
  | other

/-- One atomic action of a request, of a task, of the worker, of the writer or of a boot. -/
inductive Step : Retiring D → Act D → Retiring D → Prop where
  | mint (s : Retiring D) (hlock : s.minting = none) : Step s .mint s.mint
  | register (s : Retiring D) {n : ℕ} {rec : ShapeRecord D} (sig : Option String) (sub : String)
    (now : ℕ) (hn : s.minting = some n) (hid : rec.id = shapeId n)
    (hpath : rec.streamPath = shapePath rec.id) : Step s .other (s.register rec sig sub now)
  | abandon (s : Retiring D) : Step s .other s.abandon
  | settle (s : Retiring D) {rec : ShapeRecord D} {before after : List (ShapeRecord D)}
    (hcreate : s.creates = before ++ rec::after) : Step s .other (s.settle (before ++ after))
  | rollbackCreate (s : Retiring D) {rec : ShapeRecord D} {before after : List (ShapeRecord D)}
    (inline : Bool) (hlock : s.minting = none) (hcreate : s.creates = before ++ rec::after) :
    Step s .other (s.rollbackCreate rec (before ++ after) inline)
  /-- A purge, an eviction, a drift or a reset drops a shape. -/
  | drop (s : Retiring D) {id : String} {rec : ShapeRecord D} (inline awaits : Bool)
    (hlock : s.minting = none) (hrec : s.shapes.get? id = some rec) :
    Step s .other (s.drop id rec inline awaits)
  | deleteDone (s : Retiring D) {d : Dropper} {before after : List Dropper}
    (hd : s.droppers = before ++ d::after)
    (hawait : d.awaits = true → ∃ m ∈ s.catalog.log, ∃ id, d.shapeId = some id ∧ m.ev = .dropped id) :
    Step s .other (s.deleteDone d (before ++ after))
  | handOver (s : Retiring D) {d : Dropper} {before after : List Dropper}
    (hd : s.droppers = before ++ d::after)
    (hawait : d.awaits = true → ∃ m ∈ s.catalog.log, ∃ id, d.shapeId = some id ∧ m.ev = .dropped id) :
    Step s .other (s.handOver d (before ++ after))
  /-- The future that an inline task runs in is dropped. -/
  | cancel (s : Retiring D) {d : Dropper} {before after : List Dropper}
    (hd : s.droppers = before ++ d::after) (hinline : d.inline = true) :
    Step s .cancel (s.cancel (before ++ after))
  | take (s : Retiring D) {item : Retirement} {rest : List Retirement} (hworker : s.worker = none)
    (hqueue : s.queue ++ s.rx = item::rest) : Step s .other (s.take item rest)
  | finish (s : Retiring D) {item : Retirement} (hworker : s.worker = some item) :
    Step s .other (s.finish item)
  | retry (s : Retiring D) {item : Retirement} (hworker : s.worker = some item) :
    Step s .other (s.retry item)
  | send (s : Retiring D) {ev : CatalogEvent D} (done : Bool) (hev : ev.plain = true) :
    Step s .other (s.send ev done)
  | write (s : Retiring D) {c : CatalogWriter (CatalogEvent D)} (hc : CatalogWriter.Step s.catalog c)
    (hsame : c.taken = s.catalog.taken ∧ c.sent = s.catalog.sent) :
    Step s .other { s with catalog := c }
  | restart (s : Retiring D) {nonce : String} (hnonce : ∀ e ∈ s.stored, e.1.1 ≠ nonce) :
    Step s .restart (s.restart nonce)
  | readCatalog (s : Retiring D) (hdone : s.restoring = none) : Step s .other s.readCatalog
  | restore (s : Retiring D) {f : CatalogFold D} (keep : Restored D → Bool) (hlock : s.minting = none)
    (hread : s.read = some f) : Step s (.restore f keep) (s.restore f keep)
  | restoreDone (s : Retiring D) {ids : List String} (hids : s.restoring = some ids) :
    Step s .other s.restoreDone
  | undoRestore (s : Retiring D) {ids : List String} (hlock : s.minting = none)
    (hids : s.restoring = some ids) : Step s .other (s.undoRestore ids)

def Reachable (s : Retiring D) : Prop :=
  ∃ nonce, Relation.ReflTransGen (fun s t => ∃ a, Step s a t) (init nonce) s

/-- The catalog stream has this event. -/
def Logged (s : Retiring D) (ev : CatalogEvent D) : Prop := ∃ eid, (eid,ev) ∈ s.stored

/-- No create is minted before the boot has restored the catalog, or past the counter's range; no
inline task is cancelled; a process ends only where, for each id that was minted, the catalog stream has
the `Created` of one as high; and a restore runs beside no create, keeps no shape that its process has
dropped and drops none that is registered. -/
def Allowed (s : Retiring D) : Act D → Prop
  | .mint => s.restored = true ∧ s.nextShapeId+1 < 2^64
  | .cancel => False
  | .restart => ∀ n ∈ s.minted, ∃ m ≥ n, ∃ rec sig sub now, rec.id = shapeId m ∧
    s.Logged (.created rec sig sub now)
  | .restore f keep => s.creates = [] ∧ ∀ id r, f.recs.get? id = some r →
      if keep r then ∀ m ∈ s.catalog.sent, m.ev ≠ .dropped id else s.shapes.get? id = none
  | .other => True

/-- A run whose steps all meet the condition. -/
def GuardedSteps : Retiring D → Retiring D → Prop :=
  Relation.ReflTransGen fun s t => ∃ a, Step s a t ∧ s.Allowed a

/-- What the queue holds, the worker's item with it. -/
def items (s : Retiring D) : List Retirement := s.worker.toList ++ s.queue ++ s.rx

/-- A task or the queue has the shape's stream to retire. -/
def Held (s : Retiring D) (id : String) : Prop :=
  (∃ d ∈ s.droppers, d.shapeId = some id ∧ d.streamPath = shapePath id) ∨
    ∃ i ∈ s.items, i.shapeId = some id ∧ i.streamPath = shapePath id

/-- A shape that is live, restored or being created has this stream. -/
def Living (s : Retiring D) (streamPath : String) : Prop :=
  (∃ id rec, s.shapes.get? id = some rec ∧ rec.streamPath = streamPath) ∨
    ∃ n, s.minting = some n ∧ shapePath (shapeId n) = streamPath

/-- What the engine promises of its ids and of the streams that it retires. -/
structure Complete (s : Retiring D) : Prop where
  minted : s.minted.Nodup
  held : s.restored = true → ∀ id, s.Logged (.dropped id) → ¬s.Logged (.retired id) →
    s.Held id ∨ shapePath id ∈ s.deleted ∧ ∃ m ∈ s.catalog.line, m.ev = .retired id
  retired : ∀ id, s.Logged (.retired id) → shapePath id ∈ s.deleted
  living : ∀ i ∈ s.items, ¬s.Living i.streamPath

open CatalogEvent CatalogFold

/-- What the earlier processes stored. -/
def past (s : Retiring D) : List (CatalogEvent D) := Once.values [] s.earlier

/-- All that is stored or on its way. -/
def history (s : Retiring D) : List (CatalogEvent D) := s.past ++ s.catalog.sent.map (·.ev)

/-- The record is that of a minted id. -/
def Born (s : Retiring D) (rec : ShapeRecord D) : Prop :=
  ∃ n ∈ s.minted, rec.id = shapeId n ∧ rec.streamPath = shapePath rec.id

/-- The stream is that of a dropped shape. -/
def Dead (s : Retiring D) (streamPath : String) (shapeId : Option String) : Prop :=
  ∃ id, streamPath = shapePath id ∧ .dropped id ∈ s.history ∧ (shapeId = none ∨ shapeId = some id)

/-- Once a boot has applied the catalog, every drop is retired or somebody's work. -/
def Loaded (s : Retiring D) : Prop :=
  (∀ n ∈ s.minted, n < s.nextShapeId) ∧
    ∀ id, .dropped id ∈ s.history → .retired id ∈ s.history ∨ s.Held id

/-- Before that nothing is registered, and the catalog has what there is to know. -/
structure Unloaded (s : Retiring D) : Prop where
  restored : s.restored = false
  restoring : s.restoring = none
  shapes : ∀ id, s.shapes.get? id = none
  marked : ∀ n ∈ s.minted, ∃ rec top, Creates s.past rec ∧ shapeIdNum rec.id = some top ∧ n ≤ top
  dropped : ∀ id, .dropped id ∈ s.history → .dropped id ∈ s.past

structure Inv (s : Retiring D) : Prop where
  writer : s.catalog.Reachable
  fresh : ∀ e ∈ s.earlier, e.1.1 ≠ s.nonce
  logged : ∀ e ∈ s.earlier, e.2 ∈ s.past
  order : Ordered s.history
  nodup : s.minted.Nodup
  range : ∀ n ∈ s.minted, n+1 < 2^64
  born : ∀ rec, Creates s.history rec → s.Born rec
  minting : ∀ n, s.minting = some n → n ∈ s.minted ∧ ∀ rec, Creates s.history rec → rec.id ≠ shapeId n
  shapes : ∀ id rec, s.shapes.get? id = some rec → rec.streamPath = shapePath id ∧
    (∃ rec', Creates s.history rec' ∧ rec'.id = id) ∧ .dropped id ∉ s.history
  creates : ∀ rec ∈ s.creates, Creates s.history rec ∧
    (s.shapes.get? rec.id = none → .dropped rec.id ∈ s.history)
  droppers : ∀ d ∈ s.droppers, s.Dead d.streamPath d.shapeId
  queued : ∀ i ∈ s.items, s.Dead i.streamPath i.shapeId
  retired : ∀ id, .retired id ∈ s.history → shapePath id ∈ s.deleted
  idle : s.restored = false → s.creates = [] ∧ s.minting = none
  busy : ∀ ids, s.restoring = some ids → s.restored = false
  read : ∀ f, s.read = some f → ∃ pre, pre <+: s.history ∧ s.past <+: pre ∧ Digest pre f
  ledger : s.Loaded ∨ s.Unloaded

lemma inv_init (nonce : String) : Inv (init nonce : Retiring D) where
  writer := .refl
  fresh := by simp [init]
  logged := by simp [init]
  order := .nil
  nodup := List.nodup_nil
  range := by simp [init]
  born _ h := absurd h not_creates_nil
  minting _ h := nomatch h
  shapes _ _ h := nomatch h
  creates := by simp [init]
  droppers := by simp [init]
  queued := by simp [init,items]
  retired _ h := nomatch h
  idle _ := ⟨rfl,rfl⟩
  busy _ h := nomatch h
  read _ h := nomatch h
  ledger := .inr ⟨rfl,rfl,fun _ => rfl,by simp [init],fun _ h => nomatch h⟩

section
variable {s t : Retiring D}

lemma Dead.mono {path : String} {shapeId : Option String} (h : s.Dead path shapeId)
    (hst : s.history <+: t.history) : t.Dead path shapeId := by
  obtain ⟨id,hpath,hid,hshape⟩ := h
  exact ⟨id,hpath,hst.subset hid,hshape⟩

/-- What is stored is what was sent up to some place, and the rest is in the writer's line. -/
lemma Inv.stored_prefix (h : Inv s) :
    ∃ (pre : List (CatalogEvent D)) (rest : List (CatalogSend (CatalogEvent D))),
      s.history = pre ++ rest.map (·.ev) ∧ s.past <+: pre ∧ Once.values [] s.stored = pre ∧
      (∀ e ∈ s.stored, e.2 ∈ pre) ∧ ∀ m ∈ rest, m ∈ s.catalog.line := by
  obtain ⟨q,rest,hsent,hlog,hline⟩ := (CatalogWriter.stored_of_reachable h.writer).split
  have hnodup : (q.map (·.seq)).Nodup := by
    have hall := (CatalogWriter.inv_of_reachable h.writer).nodup
    rw [hsent,List.append_assoc,List.map_append] at hall
    exact (List.nodup_append.mp hall).1
  have hfresh : ∀ n, (s.nonce,n) ∉ s.earlier.map (·.1) ++ [] := fun n hn => by
    rw [List.append_nil,List.mem_map] at hn
    obtain ⟨e,he,heq⟩ := hn
    exact h.fresh e he (congrArg Prod.fst heq)
  refine ⟨s.past ++ q.map (·.ev),rest,?_,List.prefix_append _ _,?_,fun e he => ?_,hline⟩
  · rw [history,hsent,List.map_append,List.append_assoc]
  · rw [stored,Once.values_append,hlog.values_eq hnodup hfresh,past]
  · rw [stored,List.mem_append,List.mem_map] at he
    rcases he with he | ⟨m,hm,rfl⟩
    · exact List.mem_append_left _ (h.logged e he)
    · exact List.mem_append_right _ (List.mem_map_of_mem ((hlog.mem_iff m).mp hm))

lemma held_items {id : String} {droppers : List Dropper} {queue rx : List Retirement}
    {worker : Option Retirement} (h : s.Held id)
    (hdroppers : ∀ d ∈ s.droppers, d.shapeId = some id → d ∈ droppers)
    (hitems : ∀ i ∈ s.items, i.shapeId = some id → i ∈ worker.toList ++ queue ++ rx) :
    Held { s with droppers, queue, rx, worker } id := by
  rcases h with ⟨d,hd,hid,hpath⟩ | ⟨i,hi,hid,hpath⟩
  · exact .inl ⟨d,hdroppers d hd hid,hid,hpath⟩
  · exact .inr ⟨i,hitems i hi hid,hid,hpath⟩

/-- The tasks and the queue change what they hold. -/
lemma Inv.work (h : Inv s) {droppers : List Dropper} {queue rx : List Retirement}
    {worker : Option Retirement} (hdroppers : ∀ d ∈ droppers, s.Dead d.streamPath d.shapeId)
    (hitems : ∀ i ∈ worker.toList ++ queue ++ rx, s.Dead i.streamPath i.shapeId)
    (hheld : ∀ id, s.Held id → .retired id ∈ s.history ∨ Held { s with droppers, queue, rx, worker } id) :
    Inv { s with droppers, queue, rx, worker } :=
  { h with
    droppers := hdroppers
    queued := hitems
    ledger := by
      rcases h.ledger with ⟨hnext,howed⟩ | hunloaded
      · refine .inl ⟨hnext,fun id hid => ?_⟩
        rcases howed id hid with hretired | hid
        · exact .inl hretired
        · exact hheld id hid
      · exact .inr { hunloaded with } }

lemma history_send (ev : CatalogEvent D) (done : Bool) : (s.send ev done).history = s.history ++ [ev] := by
  simp [history,past,send,CatalogWriter.sent_send]

/-- An event is queued, and a dropped shape goes with it. -/
lemma Inv.record (h : Inv s) {ev : CatalogEvent D} (done : Bool)
    {shapes : AssocMap String (ShapeRecord D)} {droppers : List Dropper}
    (hfollows : Follows s.history ev)
    (hcreated : ∀ rec, ev.createdRec = some rec → s.Born rec ∧
      ∀ n, s.minting = some n → rec.id ≠ shapeId n)
    (hretired : ∀ id, ev = .retired id → shapePath id ∈ s.deleted)
    (hshapes : ∀ id rec, shapes.get? id = some rec → s.shapes.get? id = some rec ∧ ev ≠ .dropped id)
    (hgone : ∀ id, shapes.get? id = none → s.shapes.get? id = none ∨ ev = .dropped id)
    (hdroppers : ∀ d ∈ droppers, d ∈ s.droppers ∨
      ∃ id, ev = .dropped id ∧ d.streamPath = shapePath id ∧ d.shapeId = some id)
    (hkept : ∀ d ∈ s.droppers, d ∈ droppers)
    (hdropped : ∀ id, ev = .dropped id → s.Loaded ∧
      ∃ d ∈ droppers, d.shapeId = some id ∧ d.streamPath = shapePath id) :
    Inv { s.send ev done with shapes, droppers } := by
  have hhistory : history { s.send ev done with shapes, droppers } = s.history ++ [ev] :=
    history_send (s := s) ev done
  have hgrow : s.history <+: history { s.send ev done with shapes, droppers } := by
    rw [hhistory]
    exact List.prefix_append _ _
  have hdead : ∀ path shapeId, s.Dead path shapeId →
      Dead { s.send ev done with shapes, droppers } path shapeId := fun _ _ hd => hd.mono hgrow
  refine { h with
    writer := h.writer.send ev done
    order := ?_
    born := fun rec hrec => ?_
    minting := fun n hn => ⟨(h.minting n hn).1,fun rec hrec => ?_⟩
    shapes := fun id rec hrec => ?_
    creates := fun rec hrec => ?_
    droppers := fun d hd => ?_
    queued := fun i hi => hdead _ _ (h.queued i hi)
    retired := fun id hid => ?_
    read := fun f hf => ?_
    ledger := ?_ }
  · rw [hhistory]
    exact h.order.snoc hfollows
  · rw [hhistory,creates_snoc] at hrec
    rcases hrec with hrec | hrec
    · exact h.born rec hrec
    · exact (hcreated rec hrec).1
  · rw [hhistory,creates_snoc] at hrec
    rcases hrec with hrec | hrec
    · exact (h.minting n hn).2 rec hrec
    · exact (hcreated rec hrec).2 n hn
  · obtain ⟨hold,hev⟩ := hshapes id rec hrec
    obtain ⟨hpath,⟨rec',hrec',heq⟩,hid⟩ := h.shapes id rec hold
    refine ⟨hpath,⟨rec',hrec'.mono hgrow,heq⟩,?_⟩
    rw [hhistory,List.mem_append,List.mem_singleton,not_or]
    exact ⟨hid,fun h => hev h.symm⟩
  · obtain ⟨hcreate,hnone⟩ := h.creates rec hrec
    refine ⟨hcreate.mono hgrow,fun hmissing => ?_⟩
    rcases hgone rec.id hmissing with hmissing | rfl
    · exact hgrow.subset (hnone hmissing)
    · rw [hhistory]
      simp
  · rcases hdroppers d hd with hd | ⟨id,rfl,hpath,hid⟩
    · exact hdead _ _ (h.droppers d hd)
    · refine ⟨id,hpath,?_,.inr hid⟩
      rw [hhistory]
      simp
  · rw [hhistory,List.mem_append,List.mem_singleton] at hid
    rcases hid with hid | hid
    · exact h.retired id hid
    · exact hretired id hid.symm
  · obtain ⟨pre,hpre,hpast,hdigest⟩ := h.read f hf
    exact ⟨pre,hpre.trans hgrow,hpast,hdigest⟩
  · have hheld : ∀ id, s.Held id → Held { s.send ev done with shapes, droppers } id := fun id hid =>
      hid.imp_left fun ⟨d,hd,hrest⟩ => ⟨d,hkept d hd,hrest⟩
    have hledger : s.Loaded ∨ s.Unloaded ∧ ∀ id, ev ≠ .dropped id := by
      by_cases hev : ∃ id, ev = .dropped id
      · obtain ⟨id,hev⟩ := hev
        exact .inl (hdropped id hev).1
      · exact h.ledger.imp_right fun hunloaded => ⟨hunloaded,not_exists.mp hev⟩
    rcases hledger with ⟨hnext,howed⟩ | ⟨hunloaded,hev⟩
    · refine .inl ⟨hnext,fun id hid => ?_⟩
      rw [hhistory,List.mem_append,List.mem_singleton] at hid
      rcases hid with hid | hid
      · exact (howed id hid).imp (fun hr => hgrow.subset hr) (hheld id)
      · exact .inr (.inl (hdropped id hid.symm).2)
    · refine .inr { hunloaded with
        shapes := fun id => ?_
        dropped := fun id hid => ?_ }
      · cases hshape : shapes.get? id with
        | none => rfl
        | some rec =>
          have hold := (hshapes id rec hshape).1
          rw [hunloaded.shapes id] at hold
          cases hold
      · rw [hhistory,List.mem_append,List.mem_singleton] at hid
        rcases hid with hid | hid
        · exact hunloaded.dropped id hid
        · exact absurd hid.symm (hev id)

lemma Inv.send_plain (h : Inv s) {ev : CatalogEvent D} (done : Bool) (hev : ev.plain = true) :
    Inv (s.send ev done) := by
  have hdropped : ∀ id, ev ≠ .dropped id := by
    rintro id rfl
    cases hev
  refine h.record done ?_ (fun rec hrec => ?_) (fun id hid => ?_) (fun _ _ hrec => ⟨hrec,hdropped _⟩)
    (fun _ hnone => .inl hnone) (fun _ hd => .inl hd) (fun _ hd => hd)
    fun id hid => absurd hid (hdropped id)
  · cases ev with
    | created => cases hev
    | dropped => cases hev
    | retired => cases hev
    | _ => trivial
  · rw [createdRec_of_plain hev] at hrec
    cases hrec
  · subst hid
    cases hev

/-- A registered shape is dropped, with its own stream. -/
lemma Inv.drop (h : Inv s) {id : String} {rec rec' : ShapeRecord D} (inline awaits : Bool)
    (hrec : s.shapes.get? id = some rec') (hpath : rec.streamPath = shapePath id) :
    Inv (s.drop id rec inline awaits) := by
  obtain ⟨-,hcreated,-⟩ := h.shapes id rec' hrec
  refine h.record awaits hcreated (fun _ hev => nomatch hev) (fun _ hev => nomatch hev)
    (fun id' rec' hrec' => ?_) (fun id' hnone => ?_) (fun d hd => ?_)
    (fun d hd => List.mem_append_left _ hd) fun id' hid => ?_
  · rw [AssocMap.get?_erase] at hrec'
    split_ifs at hrec' with heq
    refine ⟨hrec',fun hev => heq ?_⟩
    simpa using hev
  · rw [AssocMap.get?_erase] at hnone
    split_ifs at hnone with heq
    · exact .inr (congrArg _ (beq_iff_eq.mp heq))
    · exact .inl hnone
  · rcases List.mem_append.mp hd with hd | hd
    · exact .inl hd
    · obtain rfl := List.mem_singleton.mp hd
      exact .inr ⟨id,rfl,hpath,rfl⟩
  · cases hid
    refine ⟨h.ledger.resolve_right fun hunloaded => ?_,_,List.mem_append_right _ (.head _),rfl,hpath⟩
    rw [hunloaded.shapes id] at hrec
    cases hrec

lemma Inv.mint (h : Inv s) (hrestored : s.restored = true) (hrange : s.nextShapeId+1 < 2^64) :
    Inv s.mint := by
  have hledger : s.Loaded := h.ledger.resolve_right fun hunloaded => by
    rw [hunloaded.restored] at hrestored
    cases hrestored
  have hnew : s.nextShapeId ∉ s.minted := fun hmem => (hledger.1 _ hmem).false
  have hmem : ∀ n ∈ s.minted, n ∈ s.minted ++ [s.nextShapeId] := fun n hn => List.mem_append_left _ hn
  refine { h with
    nodup := ?_
    range := fun n hn => ?_
    born := fun rec hrec => ?_
    minting := fun n hn => ?_
    idle := fun hr => absurd (hrestored.symm.trans hr) (by decide)
    ledger := .inl ⟨fun n hn => ?_,hledger.2⟩ }
  · rw [Retiring.mint,← List.concat_eq_append,List.nodup_concat]
    exact ⟨hnew,h.nodup⟩
  · rcases List.mem_append.mp hn with hn | hn
    · exact h.range n hn
    · rwa [List.mem_singleton.mp hn]
  · obtain ⟨n,hn,hrest⟩ := h.born rec hrec
    exact ⟨n,hmem n hn,hrest⟩
  · cases hn
    refine ⟨List.mem_append_right _ (.head _),fun rec hrec heq => ?_⟩
    obtain ⟨n,hn,hid,-⟩ := h.born rec hrec
    rw [heq,shapeId_inj] at hid
    exact hnew (hid ▸ hn)
  · have hnext : s.mint.nextShapeId = s.nextShapeId+1 := Nat.mod_eq_of_lt hrange
    rw [hnext]
    rcases List.mem_append.mp hn with hn | hn
    · exact Nat.lt_succ_of_lt (hledger.1 n hn)
    · rw [List.mem_singleton.mp hn]
      exact Nat.lt_succ_self _

lemma Inv.abandon (h : Inv s) : Inv s.abandon :=
  { h with
    minting := fun _ hn => nomatch hn
    idle := fun hr => ⟨(h.idle hr).1,rfl⟩
    ledger := h.ledger.imp_right fun hunloaded => { hunloaded with } }

lemma Inv.settle (h : Inv s) {creates : List (ShapeRecord D)} (hcreates : creates ⊆ s.creates) :
    Inv (s.settle creates) :=
  { h with
    creates := fun rec hrec => h.creates rec (hcreates hrec)
    idle := fun hr => ⟨List.subset_nil.mp ((h.idle hr).1 ▸ hcreates),(h.idle hr).2⟩
    ledger := h.ledger.imp_right fun hunloaded => { hunloaded with } }

lemma Inv.register (h : Inv s) {n : ℕ} {rec : ShapeRecord D} (sig : Option String) (sub : String)
    (now : ℕ) (hn : s.minting = some n) (hid : rec.id = shapeId n)
    (hpath : rec.streamPath = shapePath rec.id) : Inv (s.register rec sig sub now) := by
  obtain ⟨hmem,hnew⟩ := h.minting n hn
  have hfollows : Follows s.history (.created rec sig sub now) := fun rec' hrec' => hid ▸ hnew rec' hrec'
  have hdropped : .dropped rec.id ∉ s.history := fun hmem => by
    obtain ⟨rec',hrec',heq⟩ := h.order.of_dropped hmem
    exact hfollows rec' hrec' heq
  have hbusy : s.restored ≠ false := fun hr => by
    rw [(h.idle hr).2] at hn
    cases hn
  have hsent : Inv { s.abandon.send (.created rec sig sub now) true with
      shapes := s.shapes, droppers := s.droppers } :=
    h.abandon.record true hfollows
      (fun rec' hrec' => ⟨⟨n,hmem,Option.some.inj hrec' ▸ ⟨hid,hpath⟩⟩,fun _ hm => nomatch hm⟩)
      (fun _ hev => nomatch hev) (fun _ _ hrec' => ⟨hrec',fun hev => nomatch hev⟩)
      (fun _ hnone => .inl hnone) (fun _ hd => .inl hd) (fun _ hd => hd) fun _ hev => nomatch hev
  have hhistory : (s.register rec sig sub now).history = s.history ++ [.created rec sig sub now] :=
    history_send (s := s) _ true
  have hcreates : Creates (s.register rec sig sub now).history rec := by
    rw [hhistory,creates_snoc]
    exact .inr rfl
  refine { hsent with
    shapes := fun id' rec' hrec' => ?_
    creates := fun rec' hrec' => ?_
    idle := fun hr => absurd hr hbusy
    ledger := hsent.ledger.imp_right fun hunloaded => absurd hunloaded.restored hbusy }
  · have hget := (AssocMap.get?_insert_eq s.shapes rec.id id' rec).symm.trans hrec'
    split_ifs at hget with heq
    · cases hget
      refine ⟨heq ▸ hpath,⟨rec,hcreates,heq⟩,?_⟩
      rw [hhistory,← heq]
      simpa using hdropped
    · exact hsent.shapes id' rec' hget
  · have hmissing : ∀ id', (s.register rec sig sub now).shapes.get? id' = none →
        rec.id ≠ id' ∧ s.shapes.get? id' = none := fun id' hnone => by
      have hget := (AssocMap.get?_insert_eq s.shapes rec.id id' rec).symm.trans hnone
      split_ifs at hget with heq
      exact ⟨heq,hget⟩
    rcases List.mem_append.mp hrec' with hrec' | hrec'
    · obtain ⟨hcreate,hgone⟩ := hsent.creates rec' hrec'
      exact ⟨hcreate,fun hnone => hgone (hmissing _ hnone).2⟩
    · obtain rfl := List.mem_singleton.mp hrec'
      exact ⟨hcreates,fun hnone => absurd rfl (hmissing _ hnone).1⟩

lemma Inv.rollbackCreate (h : Inv s) {rec : ShapeRecord D} {before after : List (ShapeRecord D)}
    (inline : Bool) (hcreate : s.creates = before ++ rec::after) :
    Inv (s.rollbackCreate rec (before ++ after) inline) := by
  have hmem : rec ∈ s.creates := by simp [hcreate]
  have hsettled : Inv (s.settle (before ++ after)) := h.settle (by simp [hcreate])
  unfold Retiring.rollbackCreate
  cases hrec : s.shapes.get? rec.id with
  | some rec' =>
    obtain ⟨hborn,-⟩ := h.creates rec hmem
    obtain ⟨n,-,-,hpath⟩ := h.born rec hborn
    exact hsettled.drop inline false hrec hpath
  | none =>
    obtain ⟨hborn,hdropped⟩ := h.creates rec hmem
    obtain ⟨n,-,-,hpath⟩ := h.born rec hborn
    refine hsettled.work (fun d hd => ?_) hsettled.queued fun id hid => .inr ?_
    · rcases List.mem_append.mp hd with hd | hd
      · exact hsettled.droppers d hd
      · obtain rfl := List.mem_singleton.mp hd
        exact ⟨rec.id,hpath,hdropped hrec,.inl rfl⟩
    · exact held_items hid (fun d hd _ => List.mem_append_left _ hd) fun i hi _ => hi

/-- A delete has succeeded, and what is recorded of it is queued. -/
lemma Inv.retire (h : Inv s) {path : String} {shapeId : Option String} (hdead : s.Dead path shapeId) :
    Inv (s.retire path shapeId) ∧ s.history <+: (s.retire path shapeId).history ∧
      ∀ id, shapeId = some id → .retired id ∈ (s.retire path shapeId).history := by
  have hdeleted : Inv { s with deleted := s.deleted ++ [path] } :=
    { h with
      retired := fun id hid => List.mem_append_left _ (h.retired id hid)
      ledger := h.ledger.imp_right fun hunloaded => { hunloaded with } }
  cases shapeId with
  | none => exact ⟨hdeleted,List.prefix_refl _,fun _ hid => nomatch hid⟩
  | some id =>
    obtain ⟨id',hpath,hid,hshape⟩ := hdead
    obtain rfl : id = id' := by simpa using hshape
    have hhistory : (s.retire path (some id)).history = s.history ++ [.retired id] :=
      history_send (s := s) _ false
    refine ⟨hdeleted.record false hid (fun _ hev => nomatch hev) (fun id' hev => ?_)
      (fun _ _ hrec => ⟨hrec,fun hev => nomatch hev⟩) (fun _ hnone => .inl hnone) (fun _ hd => .inl hd)
      (fun _ hd => hd) (fun _ hev => nomatch hev),?_,fun id' hid' => ?_⟩
    · cases hev
      exact List.mem_append_right _ (List.mem_singleton.mpr hpath.symm)
    · rw [hhistory]
      exact List.prefix_append _ _
    · cases hid'
      rw [hhistory]
      simp

lemma Inv.deleteDone (h : Inv s) {d : Dropper} {before after : List Dropper}
    (hd : s.droppers = before ++ d::after) : Inv (s.deleteDone d (before ++ after)) := by
  obtain ⟨hinv,hgrow,hretired⟩ := h.retire (h.droppers d (by simp [hd]))
  refine hinv.work (fun d' hd' => ?_) hinv.queued fun id hid => ?_
  · refine (h.droppers d' ?_).mono hgrow
    rw [hd]
    rcases List.mem_append.mp hd' with hd' | hd'
    · exact List.mem_append_left _ hd'
    · exact List.mem_append_right _ (.tail _ hd')
  · by_cases hshape : d.shapeId = some id
    · exact .inl (hretired id hshape)
    · refine .inr (held_items hid (fun d' hd' hid' => ?_) fun i hi _ => hi)
      have hmem : d' ∈ before ++ d::after := hd ▸ hd'
      rcases List.mem_append.mp hmem with hd' | hd'
      · exact List.mem_append_left _ hd'
      · rcases List.mem_cons.mp hd' with rfl | hd'
        · exact absurd hid' hshape
        · exact List.mem_append_right _ hd'

lemma Inv.handOver (h : Inv s) {d : Dropper} {before after : List Dropper}
    (hd : s.droppers = before ++ d::after) : Inv (s.handOver d (before ++ after)) := by
  refine h.work (fun d' hd' => h.droppers d' ?_) (fun i hi => ?_) fun id hid => .inr ?_
  · rw [hd]
    rcases List.mem_append.mp hd' with hd' | hd'
    · exact List.mem_append_left _ hd'
    · exact List.mem_append_right _ (.tail _ hd')
  · rw [← List.append_assoc,List.mem_append,List.mem_singleton] at hi
    rcases hi with hi | rfl
    · exact h.queued i hi
    · exact h.droppers d (by simp [hd])
  · rcases hid with ⟨d',hd',hid,hpath⟩ | ⟨i,hi,hrest⟩
    · rw [hd] at hd'
      rcases List.mem_append.mp hd' with hd' | hd'
      · exact .inl ⟨d',List.mem_append_left _ hd',hid,hpath⟩
      · rcases List.mem_cons.mp hd' with rfl | hd'
        · -- the queue has it now
          exact .inr ⟨⟨d'.streamPath,d'.shapeId,0⟩,List.mem_append_right _ (by simp),hid,hpath⟩
        · exact .inl ⟨d',List.mem_append_right _ hd',hid,hpath⟩
    · refine .inr ⟨i,?_,hrest⟩
      rw [items] at hi ⊢
      simp only [List.mem_append] at hi ⊢
      tauto

lemma Inv.take (h : Inv s) {item : Retirement} {rest : List Retirement} (hworker : s.worker = none)
    (hqueue : s.queue ++ s.rx = item::rest) : Inv (s.take item rest) := by
  have hitems : ∀ i, i ∈ (some item).toList ++ rest ++ ([] : List Retirement) ↔ i ∈ s.items := fun i => by
    have hall : s.items = item::rest := by
      rw [items,hworker,List.append_assoc,hqueue]
      rfl
    rw [hall,List.append_nil]
    rfl
  exact h.work h.droppers (fun i hi => h.queued i ((hitems i).mp hi)) fun id hid =>
    .inr (held_items hid (fun d hd _ => hd) fun i hi _ => (hitems i).mpr hi)

lemma Inv.finish (h : Inv s) {item : Retirement} (hworker : s.worker = some item) :
    Inv (s.finish item) := by
  obtain ⟨hinv,hgrow,hretired⟩ := h.retire (h.queued item (by simp [items,hworker]))
  have hrest : ∀ i, i ∈ (none : Option Retirement).toList ++ s.queue ++ s.rx → i ∈ s.items := fun i hi => by
    rw [items,hworker]
    simp only [Option.toList_none,List.nil_append,List.mem_append] at hi
    simp only [List.mem_append]
    tauto
  refine hinv.work hinv.droppers (fun i hi => (h.queued i (hrest i hi)).mono hgrow) fun id hid => ?_
  by_cases hshape : item.shapeId = some id
  · exact .inl (hretired id hshape)
  · refine .inr (held_items hid (fun d hd _ => hd) fun i hi hid' => ?_)
    have hmem : i ∈ s.items := hi
    rw [items,hworker] at hmem
    simp only [Option.toList_some,List.mem_append,List.mem_singleton] at hmem
    rcases hmem with (rfl | hmem) | hmem
    · exact absurd hid' hshape
    · exact List.mem_append_left _ (List.mem_append_right _ hmem)
    · exact List.mem_append_right _ hmem

lemma Inv.retry (h : Inv s) {item : Retirement} (hworker : s.worker = some item) :
    Inv (s.retry item) := by
  have hitem : item ∈ s.items := by simp [items,hworker]
  refine h.work h.droppers (fun i hi => ?_) fun id hid => .inr ?_
  · simp only [Option.toList_none,List.nil_append,List.mem_append,List.mem_singleton] at hi
    rcases hi with (hi | rfl) | hi
    · exact h.queued i (by simp [items,hi])
    · exact h.queued item hitem
    · exact h.queued i (by simp [items,hi])
  · rcases hid with hd | ⟨i,hi,hrest⟩
    · exact .inl hd
    · rw [items,hworker] at hi
      simp only [Option.toList_some,List.mem_append,List.mem_singleton] at hi
      rcases hi with (rfl | hi) | hi
      · exact .inr ⟨{ i with attempt := i.attempt+1 },by simp [items],hrest⟩
      · exact .inr ⟨i,by simp [items,hi],hrest⟩
      · exact .inr ⟨i,by simp [items,hi],hrest⟩

lemma Inv.write (h : Inv s) {c : CatalogWriter (CatalogEvent D)} (hc : CatalogWriter.Step s.catalog c)
    (hsame : c.taken = s.catalog.taken ∧ c.sent = s.catalog.sent) : Inv { s with catalog := c } := by
  have hreach : c.Reachable := h.writer.tail hc
  obtain ⟨nextEid,taken,queue,writer,landedSeq,log,sent,answered,durables,waits,returned⟩ := c
  obtain ⟨rfl,rfl⟩ := hsame
  exact { h with
    writer := hreach
    ledger := h.ledger.imp_right fun hunloaded => { hunloaded with } }

/-- The fold of what is stored. -/
lemma Inv.digest (h : Inv s) : ∃ pre, pre <+: s.history ∧ s.past <+: pre ∧
    Once.values [] s.stored = pre ∧ (∀ e ∈ s.stored, e.2 ∈ pre) ∧ Digest pre (foldEntries s.stored) := by
  obtain ⟨pre,rest,hhistory,hpast,hvalues,hstored,-⟩ := h.stored_prefix
  have hpre : pre <+: s.history := hhistory ▸ List.prefix_append _ _
  obtain ⟨seen,hfold⟩ := foldl_applyOnce (CatalogFold.default : CatalogFold D) s.stored
  refine ⟨pre,hpre,hpast,hvalues,hstored,?_⟩
  have hdigest := digest_of_ordered (h.order.of_prefix hpre)
  rw [foldEntries,hfold]
  rw [← hvalues] at hdigest ⊢
  exact { hdigest with }

lemma Inv.readCatalog (h : Inv s) : Inv s.readCatalog := by
  obtain ⟨pre,hpre,hpast,-,-,hdigest⟩ := h.digest
  refine { h with
    read := fun f hf => ?_
    ledger := h.ledger.imp_right fun hunloaded => { hunloaded with } }
  cases hf
  exact ⟨pre,hpre,hpast,hdigest⟩

lemma Inv.restart (h : Inv s) {nonce : String} (hnonce : ∀ e ∈ s.stored, e.1.1 ≠ nonce)
    (hmarked : ∀ n ∈ s.minted, ∃ m ≥ n, ∃ rec sig sub now, rec.id = shapeId m ∧
      s.Logged (.created rec sig sub now)) : Inv (s.restart nonce) := by
  obtain ⟨pre,hpre,-,hvalues,hstored,hdigest⟩ := h.digest
  have hpast : (s.restart nonce).past = pre := hvalues
  have hhistory : (s.restart nonce).history = pre := by
    rw [history,hpast]
    exact List.append_nil pre
  refine {
    writer := .refl
    fresh := hnonce
    logged := fun e he => hpast ▸ hstored e he
    order := hhistory ▸ h.order.of_prefix hpre
    nodup := h.nodup
    range := h.range
    born := fun rec hrec => h.born rec ((hhistory ▸ hrec).mono hpre)
    minting := fun _ hn => nomatch hn
    shapes := fun _ _ hrec => nomatch hrec
    creates := fun _ hrec => nomatch hrec
    droppers := fun _ hd => nomatch hd
    queued := fun _ hi => nomatch hi
    retired := fun id hid => h.retired id (hpre.subset (hhistory ▸ hid))
    idle := fun _ => ⟨rfl,rfl⟩
    busy := fun _ hids => nomatch hids
    read := fun _ hf => nomatch hf
    ledger := .inr ⟨rfl,rfl,fun _ => rfl,fun n hn => ?_,fun id hid => ?_⟩ }
  · obtain ⟨m,hle,rec,sig,sub,now,hid,eid,hentry⟩ := hmarked n hn
    have hrec : Creates pre rec := ⟨_,hstored _ hentry,rfl⟩
    obtain ⟨m',hm',hid',-⟩ := h.born rec (hrec.mono hpre)
    obtain rfl : m = m' := shapeId_inj.mp (hid.symm.trans hid')
    refine ⟨rec,m,hpast ▸ hrec,?_,hle⟩
    rw [hid]
    exact shapeIdNum_shapeId ((Nat.lt_succ_self m).trans (h.range m hm'))
  · rw [hhistory] at hid
    rwa [hpast]

lemma Inv.restoreDone (h : Inv s) {ids : List String} (hids : s.restoring = some ids) :
    Inv s.restoreDone :=
  { h with
    idle := fun hr => nomatch hr
    busy := fun _ hids => nomatch hids
    ledger := .inl (h.ledger.resolve_right fun hunloaded => by
      rw [hunloaded.restoring] at hids
      cases hids) }

lemma Inv.undoRestore (h : Inv s) {ids : List String} (hids : s.restoring = some ids) :
    Inv (s.undoRestore ids) := by
  have hidle := h.idle (h.busy ids hids)
  refine { h with
    shapes := fun id rec hrec => h.shapes id rec ?_
    creates := fun rec hrec => ?_
    busy := fun _ hids => nomatch hids
    ledger := .inl (h.ledger.resolve_right fun hunloaded => by
      rw [hunloaded.restoring] at hids
      cases hids) }
  · rw [Retiring.undoRestore,AssocMap.get?_filter] at hrec
    exact (Option.filter_eq_some_iff.mp hrec).1
  · have hnone : rec ∈ s.creates := hrec
    rw [hidle.1] at hnone
    cases hnone

lemma Born.num {rec : ShapeRecord D} (hborn : s.Born rec) (hrange : ∀ n ∈ s.minted, n+1 < 2^64) :
    ∃ n ∈ s.minted, shapeIdNum rec.id = some n := by
  obtain ⟨n,hn,hid,-⟩ := hborn
  refine ⟨n,hn,?_⟩
  rw [hid]
  exact shapeIdNum_shapeId ((Nat.lt_succ_self n).trans (hrange n hn))

/-- What `restore` does first: the retirements that the log owes are queued and the counter moves on. -/
def load (s : Retiring D) (f : CatalogFold D) : Retiring D :=
  { s with
    rx := s.rx ++ f.pendingRetire.entries.map fun e => ⟨e.2,some e.1,0⟩
    nextShapeId := f.maxShapeId.elim s.nextShapeId fun top => max s.nextShapeId ((top+1) % 2^64)
    read := none
    restoring := some f.recs.keys
    restored := false }

lemma Inv.load (h : Inv s) {f : CatalogFold D} (hlock : s.minting = none) (hcreates : s.creates = [])
    (hread : s.read = some f) : Inv (s.load f) ∧ (s.load f).Loaded := by
  obtain ⟨pre,hpre,hpast,hdigest⟩ := h.read f hread
  have hitems : (s.load f).items = s.items ++ f.pendingRetire.entries.map fun e => ⟨e.2,some e.1,0⟩ :=
    (List.append_assoc _ _ _).symm
  have hheld : ∀ id, s.Held id → (s.load f).Held id := fun id hid =>
    held_items hid (fun _ hd _ => hd) fun i hi _ =>
      (show i ∈ (s.load f).items from hitems ▸ List.mem_append_left _ hi)
  have hmono : s.nextShapeId ≤ (s.load f).nextShapeId := by
    rw [Retiring.load]
    cases f.maxShapeId with
    | none => exact le_rfl
    | some top => exact le_max_left _ _
  have hloaded : (s.load f).Loaded := by
    rcases h.ledger with ⟨hnext,howed⟩ | hunloaded
    · exact ⟨fun n hn => (hnext n hn).trans_le hmono,fun id hid => (howed id hid).imp_right (hheld id)⟩
    · refine ⟨fun n hn => ?_,fun id hid => ?_⟩
      · obtain ⟨rec,num,hrec,hnum,hle⟩ := hunloaded.marked n hn
        obtain ⟨top,htop,hle'⟩ := hdigest.marked rec num (hrec.mono hpast) hnum
        obtain ⟨rec',hrec',hnum'⟩ := hdigest.mark top htop
        obtain ⟨m,hm,hnum''⟩ := (h.born rec' (hrec'.mono hpre)).num h.range
        obtain rfl := Option.some.inj (hnum'.symm.trans hnum'')
        have hwrap : (top+1) % 2^64 = top+1 := Nat.mod_eq_of_lt (h.range top hm)
        simp only [Retiring.load,htop,Option.elim_some,hwrap]
        omega
      · rcases hdigest.owed id (hpast.subset (hunloaded.dropped id hid)) with hr | ⟨path,hp⟩
        · exact .inl (hpre.subset hr)
        · obtain ⟨-,rec,hrec,rfl,rfl⟩ := hdigest.pending id path hp
          obtain ⟨-,-,-,hpath⟩ := h.born rec (hrec.mono hpre)
          refine .inr (.inr ⟨⟨rec.streamPath,some rec.id,0⟩,?_,rfl,hpath⟩)
          refine List.mem_append_right _ (List.mem_append_right _ (List.mem_map.mpr ⟨(_,_),?_,rfl⟩))
          exact (AssocMap.mem_entries _ _ _).mpr hp
  refine ⟨{ h with
    queued := fun i hi => ?_
    idle := fun _ => ⟨hcreates,hlock⟩
    busy := fun _ _ => rfl
    read := fun _ hf => nomatch hf
    ledger := .inl hloaded },hloaded⟩
  rw [hitems,List.mem_append] at hi
  rcases hi with hi | hi
  · exact h.queued i hi
  · obtain ⟨e,he,rfl⟩ := List.mem_map.mp hi
    obtain ⟨hid,rec,hrec,hrecid,hpath⟩ := hdigest.pending e.1 e.2 ((AssocMap.mem_entries _ _ _).mp he)
    obtain ⟨-,-,-,hborn⟩ := h.born rec (hrec.mono hpre)
    exact ⟨e.1,by rw [← hpath,hborn,hrecid],hpre.subset hid,.inr rfl⟩

/-- The shapes that a boot drops, one after the other. -/
def dropAll (s : Retiring D) (dead : List (String × Restored D)) : Retiring D :=
  { s with
    catalog := dead.foldl (fun c e => c.send (.dropped e.1) false) s.catalog
    droppers := s.droppers ++ dead.map fun e => ⟨e.2.record.streamPath,some e.1,true,false⟩ }

lemma dropAll_cons (e : String × Restored D) (dead : List (String × Restored D)) :
    s.dropAll (e::dead) = dropAll { s.send (.dropped e.1) false with
      droppers := s.droppers ++ [⟨e.2.record.streamPath,some e.1,true,false⟩] } dead := by
  simp [dropAll,send]

lemma Inv.dropAll (h : Inv s) (hloaded : s.Loaded) (dead : List (String × Restored D))
    (hdead : ∀ e ∈ dead, (∃ rec, Creates s.history rec ∧ rec.id = e.1) ∧
      e.2.record.streamPath = shapePath e.1 ∧ s.shapes.get? e.1 = none) :
    Inv (s.dropAll dead) ∧ (s.dropAll dead).Loaded ∧
      (s.dropAll dead).history = s.history ++ dead.map (.dropped ·.1) := by
  induction dead generalizing s with
  | nil =>
    have hnil : s.dropAll [] = s := by simp [Retiring.dropAll]
    rw [hnil,List.map_nil,List.append_nil]
    exact ⟨h,hloaded,rfl⟩
  | cons e dead ih =>
    obtain ⟨hcreated,hpath,hgone⟩ := hdead e (.head _)
    have hhistory : history { s.send (.dropped e.1) false with
        droppers := s.droppers ++ [⟨e.2.record.streamPath,some e.1,true,false⟩] } =
          s.history ++ [.dropped e.1] := history_send (s := s) _ false
    have hdrop : Inv { s.send (.dropped e.1) false with
        droppers := s.droppers ++ [⟨e.2.record.streamPath,some e.1,true,false⟩] } := by
      refine h.record false hcreated (fun _ hev => nomatch hev) (fun _ hev => nomatch hev)
        (fun id rec hrec => ⟨hrec,fun hev => ?_⟩) (fun _ hnone => .inl hnone) (fun d hd => ?_)
        (fun d hd => List.mem_append_left _ hd) fun id hid => ?_
      · cases hev
        exact nomatch hgone.symm.trans hrec
      · rcases List.mem_append.mp hd with hd | hd
        · exact .inl hd
        · obtain rfl := List.mem_singleton.mp hd
          exact .inr ⟨e.1,rfl,hpath,rfl⟩
      · cases hid
        exact ⟨hloaded,_,List.mem_append_right _ (.head _),rfl,hpath⟩
    have hloaded' : Loaded { s.send (.dropped e.1) false with
        droppers := s.droppers ++ [⟨e.2.record.streamPath,some e.1,true,false⟩] } := by
      refine ⟨hloaded.1,fun id hid => ?_⟩
      rw [hhistory,List.mem_append,List.mem_singleton] at hid
      rw [hhistory]
      rcases hid with hid | hid
      · refine (hloaded.2 id hid).imp (List.mem_append_left _) fun hid => ?_
        exact hid.imp_left fun ⟨d,hd,hrest⟩ => ⟨d,List.mem_append_left _ hd,hrest⟩
      · cases hid
        exact .inr (.inl ⟨_,List.mem_append_right _ (.head _),rfl,hpath⟩)
    rw [dropAll_cons,List.map_cons]
    obtain ⟨hinv,hload,hhist⟩ := ih hdrop hloaded' fun e' he' => by
      obtain ⟨⟨rec,hrec,hid⟩,hrest⟩ := hdead e' (.tail _ he')
      exact ⟨⟨rec,hrec.mono (hhistory ▸ List.prefix_append _ _),hid⟩,hrest⟩
    refine ⟨hinv,hload,?_⟩
    rw [hhist,hhistory,List.append_assoc]
    rfl

lemma foldl_insert_some {kept : List (String × Restored D)} {shapes : AssocMap String (ShapeRecord D)}
    {id : String} {rec : ShapeRecord D}
    (h : (kept.foldl (fun shapes e => shapes.insert e.1 e.2.record) shapes).get? id = some rec) :
    shapes.get? id = some rec ∨ ∃ e ∈ kept, e.1 = id ∧ e.2.record = rec := by
  induction kept generalizing shapes with
  | nil => exact .inl h
  | cons e kept ih =>
    rcases ih h with h | ⟨e',he',hrest⟩
    · rw [AssocMap.get?_insert_eq] at h
      split_ifs at h with heq
      · exact .inr ⟨e,.head _,heq,Option.some.inj h⟩
      · exact .inl h
    · exact .inr ⟨e',.tail _ he',hrest⟩

lemma Inv.restore (h : Inv s) {f : CatalogFold D} (keep : Restored D → Bool) (hlock : s.minting = none)
    (hread : s.read = some f) (hcreates : s.creates = [])
    (hkeep : ∀ id r, f.recs.get? id = some r →
      if keep r then ∀ m ∈ s.catalog.sent, m.ev ≠ .dropped id else s.shapes.get? id = none) :
    Inv (s.restore f keep) := by
  obtain ⟨pre,hpre,hpast,hdigest⟩ := h.read f hread
  obtain ⟨hload,hloaded⟩ := h.load hlock hcreates hread
  have hrec : ∀ e ∈ f.recs.entries, .dropped e.1 ∉ pre ∧ (∃ rec, Creates s.history rec ∧ rec.id = e.1) ∧
      e.2.record.streamPath = shapePath e.1 := fun e he => by
    obtain ⟨hid,rec,hrec,hrecid,hpath⟩ := hdigest.recs e.1 e.2 ((AssocMap.mem_entries _ _ _).mp he)
    obtain ⟨-,-,-,hborn⟩ := h.born rec (hrec.mono hpre)
    exact ⟨hid,⟨rec,hrec.mono hpre,hrecid⟩,by rw [← hpath,hborn,hrecid]⟩
  have hget : ∀ e ∈ f.recs.entries, f.recs.get? e.1 = some e.2 := fun e he =>
    (AssocMap.mem_entries _ _ _).mp he
  obtain ⟨hdrop,hdropped,hhistory⟩ := hload.dropAll hloaded
    (f.recs.entries.filter fun e => !keep e.2) fun e he => by
      obtain ⟨he,hk⟩ := List.mem_filter.mp he
      obtain ⟨-,hcreated,hpath⟩ := hrec e he
      have hnone := hkeep e.1 e.2 (hget e he)
      rw [if_neg (by simpa using hk)] at hnone
      exact ⟨hcreated,hpath,hnone⟩
  refine { hdrop with
    shapes := fun id rec hshape => ?_
    creates := fun rec hmem => ?_
    ledger := .inl hdropped }
  · rcases foldl_insert_some hshape with hold | ⟨e,he,rfl,rfl⟩
    · exact hdrop.shapes id rec hold
    · obtain ⟨he,hk⟩ := List.mem_filter.mp he
      obtain ⟨hid,⟨rec,hcreated,hrecid⟩,hpath⟩ := hrec e he
      refine ⟨hpath,⟨rec,?_,hrecid⟩,fun hmem => ?_⟩
      · exact hcreated.mono (show s.history <+: ((s.load f).dropAll _).history from
          hhistory ▸ List.prefix_append _ _)
      · have hmem : .dropped e.1 ∈ s.history ++
            (f.recs.entries.filter fun e => !keep e.2).map (.dropped ·.1) := hhistory ▸ hmem
        rcases List.mem_append.mp hmem with hmem | hmem
        · rcases List.mem_append.mp hmem with hmem | hmem
          · exact hid (hpast.subset hmem)
          · obtain ⟨m,hm,hev⟩ := List.mem_map.mp hmem
            have hnot := hkeep e.1 e.2 (hget e he)
            rw [if_pos hk] at hnot
            exact hnot m hm hev
        · -- a shape is kept or dropped, not both
          obtain ⟨e',he',hev⟩ := List.mem_map.mp hmem
          obtain ⟨he',hk'⟩ := List.mem_filter.mp he'
          have heq : e'.1 = e.1 := by simpa using hev
          have hsame := (hget e' he').symm.trans ((congrArg f.recs.get? heq).trans (hget e he))
          rw [Option.some.inj hsame,hk] at hk'
          cases hk'
  · have hnone : rec ∈ s.creates := hmem
    rw [hcreates] at hnone
    cases hnone

theorem inv_step (h : Inv s) {a : Act D} (hst : Step s a t) (hallowed : s.Allowed a) : Inv t := by
  cases hst with
  | mint => exact h.mint hallowed.1 hallowed.2
  | register sig sub now hn hid hpath => exact h.register sig sub now hn hid hpath
  | abandon => exact h.abandon
  | settle hcreate => exact h.settle (by simp [hcreate])
  | rollbackCreate inline _ hcreate => exact h.rollbackCreate inline hcreate
  | drop inline awaits _ hrec => exact h.drop inline awaits hrec (h.shapes _ _ hrec).1
  | deleteDone hd => exact h.deleteDone hd
  | handOver hd => exact h.handOver hd
  | cancel => exact hallowed.elim
  | take hworker hqueue => exact h.take hworker hqueue
  | finish hworker => exact h.finish hworker
  | retry hworker => exact h.retry hworker
  | send done hev => exact h.send_plain done hev
  | write hc hsame => exact h.write hc hsame
  | restart hnonce => exact h.restart hnonce hallowed
  | readCatalog => exact h.readCatalog
  | restore keep hlock hread => exact h.restore keep hlock hread hallowed.1 hallowed.2
  | restoreDone hids => exact h.restoreDone hids
  | undoRestore _ hids => exact h.undoRestore hids

theorem inv_of_guarded {nonce : String} (h : GuardedSteps (init nonce) s) : Inv s := by
  induction h with
  | refl => exact inv_init nonce
  | tail _ hst ih =>
    obtain ⟨a,hst,hallowed⟩ := hst
    exact inv_step ih hst hallowed

lemma Inv.complete (h : Inv s) : s.Complete where
  minted := h.nodup
  held hrestored id hdropped hretired := by
    obtain ⟨pre,rest,hhistory,-,hvalues,hstored,hline⟩ := h.stored_prefix
    have hloaded : s.Loaded := h.ledger.resolve_right fun hunloaded => by
      rw [hunloaded.restored] at hrestored
      cases hrestored
    obtain ⟨eid,hentry⟩ := hdropped
    have hid : .dropped id ∈ s.history := by
      rw [hhistory]
      exact List.mem_append_left _ (hstored _ hentry)
    rcases hloaded.2 id hid with hr | hheld
    · -- the `Retired` is sent and not stored
      refine .inr ⟨h.retired id hr,?_⟩
      rw [hhistory] at hr
      rcases List.mem_append.mp hr with hr | hr
      · exact absurd (Once.mem_of_values (hvalues ▸ hr)) hretired
      · obtain ⟨m,hm,hev⟩ := List.mem_map.mp hr
        exact ⟨m,hline m hm,hev⟩
    · exact .inl hheld
  retired id hretired := by
    obtain ⟨pre,hpre,-,-,hstored,-⟩ := h.digest
    obtain ⟨eid,hentry⟩ := hretired
    exact h.retired id (hpre.subset (hstored _ hentry))
  living i hi hliving := by
    obtain ⟨id,hpath,hid,-⟩ := h.queued i hi
    rcases hliving with ⟨id',rec,hrec,hpath'⟩ | ⟨n,hn,hpath'⟩
    · obtain ⟨hown,-,hlive⟩ := h.shapes id' rec hrec
      rw [hpath',hpath,shapePath_inj] at hown
      exact hlive (hown ▸ hid)
    · rw [hpath,shapePath_inj] at hpath'
      obtain ⟨rec,hcreated,heq⟩ := h.order.of_dropped hid
      exact (h.minting n hn).2 rec hcreated (heq.trans hpath'.symm)

/-- In a run whose steps all meet the condition, no id is minted twice, a dropped shape is somebody's
work until its stream is deleted, `Retired` is stored only then, and the queue never has the stream
of a shape that lives. -/
theorem retirement_complete {nonce : String} (h : GuardedSteps (init nonce) s) : s.Complete :=
  (inv_of_guarded h).complete

end

section Sample

def sampleRecord : ShapeRecord Unit := ⟨"s1","shape/s1",false,false,false,none,()⟩

def sampleBoot (s : Retiring Unit) : Retiring Unit :=
  (s.readCatalog.restore (foldEntries s.stored) fun _ => true).restoreDone

/-- The writer stores the head of its queue. -/
def sampleStore (s : Retiring Unit) : Retiring Unit :=
  match s.catalog.queue with
  | [] => s
  | m::q => { s with catalog := (((s.catalog.receive m q).land m).publish m).answer m }

/-- A shape is created and purged, and both events are stored. -/
def samplePurged (inline : Bool) : Retiring Unit :=
  sampleStore (sampleStore (((sampleBoot (init "a")).mint.register sampleRecord none "x" 0).drop "s1"
    sampleRecord inline false))

lemma sampleStore_steps {s : Retiring Unit} (hidle : s.catalog.writer = .idle) :
    GuardedSteps s (sampleStore s) := by
  unfold sampleStore
  cases hq : s.catalog.queue with
  | nil => exact .refl
  | cons m q =>
    exact .tail (.tail (.tail (.single ⟨_,.write s (.receive s.catalog hidle hq) ⟨rfl,rfl⟩,trivial⟩)
      ⟨_,.write _ (.land _ rfl) ⟨rfl,rfl⟩,trivial⟩) ⟨_,.write _ (.publish _ rfl) ⟨rfl,rfl⟩,trivial⟩)
      ⟨_,.write _ (.answer _ rfl) ⟨rfl,rfl⟩,trivial⟩

lemma samplePurged_steps (inline : Bool) : GuardedSteps (init "a") (samplePurged inline) := by
  have hread : GuardedSteps (init "a" : Retiring Unit) (init "a").readCatalog :=
    .single ⟨_,.readCatalog _ rfl,trivial⟩
  have hboot : GuardedSteps (init "a" : Retiring Unit) (sampleBoot (init "a")) :=
    (hread.tail ⟨_,.restore _ (fun _ => true) rfl rfl,rfl,fun _ _ hr => nomatch hr⟩).tail
      ⟨_,.restoreDone _ rfl,trivial⟩
  have hdrop := ((hboot.tail ⟨_,.mint _ rfl,rfl,by decide⟩).tail
    ⟨_,@Step.register _ _ _ sampleRecord none "x" 0 rfl (by decide +kernel) (by decide +kernel),
      trivial⟩).tail ⟨_,@Step.drop _ _ "s1" sampleRecord inline false rfl (by decide +kernel),trivial⟩
  exact (hdrop.trans (sampleStore_steps rfl)).trans (sampleStore_steps rfl)

lemma samplePurged_stored (inline : Bool) : (samplePurged inline).stored =
    [(("a",1),.created sampleRecord none "x" 0),(("a",2),.dropped "s1")] := rfl

lemma samplePurged_logged (inline : Bool) : (samplePurged inline).Logged (.dropped "s1") ∧
    ¬(samplePurged inline).Logged (.retired "s1") := by
  refine ⟨⟨("a",2),?_⟩,fun ⟨eid,heid⟩ => ?_⟩
  · rw [samplePurged_stored]
    exact .tail _ (.head _)
  · rw [samplePurged_stored] at heid
    simp at heid

/-- The process ends before the stream is deleted, and the next one mints an id. -/
def sampleRestarted : Retiring Unit := (sampleBoot ((samplePurged true).restart "b")).mint

lemma sampleRestarted_steps : GuardedSteps (init "a") sampleRestarted := by
  have hnonce : ∀ e ∈ (samplePurged true).stored, e.1.1 ≠ "b" := by
    rw [samplePurged_stored]
    decide +kernel
  have hmarked : (samplePurged true).Allowed .restart := by
    intro n hn
    obtain rfl := List.mem_singleton.mp hn
    refine ⟨1,le_rfl,sampleRecord,none,"x",0,by decide +kernel,("a",1),?_⟩
    rw [samplePurged_stored]
    exact .head _
  have hread := ((samplePurged_steps true).tail ⟨_,.restart _ hnonce,hmarked⟩).tail ⟨_,.readCatalog _ rfl,trivial⟩
  have hboot := (hread.tail ⟨_,.restore _ (fun _ => true) rfl rfl,rfl,fun _ _ hr => nomatch hr⟩).tail
    ⟨_,.restoreDone _ rfl,trivial⟩
  exact hboot.tail ⟨_,.mint _ rfl,rfl,by decide⟩

theorem sample_retirement_complete : sampleRestarted.minted.Nodup ∧ sampleRestarted.Held "s1" ∧
    ∀ i ∈ sampleRestarted.items, ¬sampleRestarted.Living i.streamPath := by
  have hcomplete := retirement_complete sampleRestarted_steps
  have hstored : sampleRestarted.stored = (samplePurged true).stored := rfl
  have hlogged : sampleRestarted.Logged (.dropped "s1") ∧ ¬sampleRestarted.Logged (.retired "s1") := by
    rw [Logged,Logged,hstored]
    exact samplePurged_logged true
  refine ⟨hcomplete.minted,(hcomplete.held rfl "s1" hlogged.1 hlogged.2).resolve_right fun h => ?_,hcomplete.living⟩
  exact absurd h.1 (by decide +kernel)

lemma reachable_of_guarded {s t : Retiring Unit} {nonce : String} (h : GuardedSteps (init nonce) s)
    (hst : Relation.ReflTransGen (fun s t => ∃ a, Step s a t) s t) : t.Reachable :=
  ⟨nonce,(Relation.ReflTransGen.mono (fun _ _ ⟨a,hst,_⟩ => ⟨a,hst⟩) _ _ h).trans hst⟩

/-- A process that ends before it stores `Created` has its id minted again; a purge whose request is
cancelled leaves a `Dropped` to nobody; and a create that a boot admits before it has restored the
catalog gets the stream that the queue is to delete. -/
theorem sample_retirement_incomplete : (¬∀ s : Retiring Unit, s.Reachable → s.minted.Nodup) ∧
    (¬∀ s : Retiring Unit, s.Reachable → s.restored = true → ∀ id, s.Logged (.dropped id) →
      ¬s.Logged (.retired id) → s.Held id ∨ shapePath id ∈ s.deleted) ∧
    ¬∀ s : Retiring Unit, s.Reachable → ∀ i ∈ s.items, ¬s.Living i.streamPath := by
  refine ⟨fun h => ?_,fun h => ?_,fun h => ?_⟩
  · have hread : Relation.ReflTransGen (fun s t : Retiring Unit => ∃ a, Step s a t) (init "a")
        (sampleBoot (init "a")) :=
      .tail (.tail (.single ⟨_,.readCatalog _ rfl⟩) ⟨_,.restore _ (fun _ => true) rfl rfl⟩)
        ⟨_,.restoreDone _ rfl⟩
    have hminted := (hread.tail ⟨_,.mint _ rfl⟩).tail
      ⟨_,@Step.register _ _ _ sampleRecord none "x" 0 rfl (by decide +kernel) (by decide +kernel)⟩
    have hrestarted := (((hminted.tail ⟨_,@Step.restart _ _ "b" (fun _ he => nomatch he)⟩).tail
      ⟨_,.readCatalog _ rfl⟩).tail ⟨_,.restore _ (fun _ => true) rfl rfl⟩).tail ⟨_,.restoreDone _ rfl⟩
    have hnodup := h _ ⟨"a",hrestarted.tail ⟨_,.mint _ rfl⟩⟩
    exact absurd hnodup (by decide +kernel)
  · have hrun := reachable_of_guarded (samplePurged_steps true) (.single
      ⟨_,@Step.cancel _ _ ⟨"shape/s1",some "s1",true,false⟩ [] [] rfl rfl⟩)
    obtain ⟨hdropped,hretired⟩ := samplePurged_logged true
    rcases h _ hrun rfl "s1" hdropped hretired with (⟨d,hd,-⟩ | ⟨i,hi,-⟩) | hdeleted
    · cases hd
    · cases hi
    · cases hdeleted
  · have hnonce : ∀ e ∈ (samplePurged false).stored, e.1.1 ≠ "b" := by
      rw [samplePurged_stored]
      decide +kernel
    have hrun := reachable_of_guarded (samplePurged_steps false) (.tail (.tail (.tail (.tail (.single
      ⟨_,.restart _ hnonce⟩) ⟨_,.mint _ rfl⟩) ⟨_,@Step.register _ _ _ sampleRecord none "x" 0 rfl
      (by decide +kernel) (by decide +kernel)⟩) ⟨_,.readCatalog _ rfl⟩)
      ⟨_,.restore _ (fun _ => true) rfl rfl⟩)
    exact h _ hrun ⟨"shape/s1",some "s1",0⟩ (by decide +kernel)
      (.inl ⟨"s1",sampleRecord,by decide +kernel,rfl⟩)

end Sample
end Retiring
end ElectricCircuits
