import ElectricCircuits.JsonText
import ElectricCircuits.StreamFold
import Mathlib.Data.Finset.Basic
import Mathlib.Data.String.Basic
import Mathlib.Logic.Relation
import Mathlib.Order.WithBot

/-! The adapter for clients that follow a log of inserts, updates and deletes: the snapshot of a shape's
stream, the key set that it is classified against, and the reads of one handle. -/
namespace ElectricCircuits

/-- An envelope as storage gives it back, with the offset that it was stamped with. -/
structure StoredEnvelope where
  env : Envelope
  offset : Option String

structure ShapePage where
  envelopes : List StoredEnvelope
  nextOffset : Option String
  upToDate : Bool
  closed : Bool

/-- `-1` is the beginning; any other two tokens are ordered as their texts are. -/
def offsetAfter (a b : String) : Bool :=
  if a = "-1" then false else if b = "-1" then true else b < a

/-- The order of the tokens as a linear one. -/
def offsetRank (o : String) : WithBot String := if o = "-1" then ⊥ else o

lemma offsetAfter_iff (a b : String) : offsetAfter a b = true ↔ offsetRank b < offsetRank a := by
  unfold offsetAfter offsetRank
  split_ifs <;> simp

lemma offsetAfter_eq_false (a b : String) : offsetAfter a b = false ↔ offsetRank a ≤ offsetRank b := by
  rw [Bool.eq_false_iff,Ne,offsetAfter_iff,not_lt]

/-- The fold of a shape's stream, page by page, up to an offset or to its end. -/
structure ShapeFold where
  rows : AssocMap String Json
  order : List String
  offset : String
  until_ : Option String
  keysOnly : Bool
  done : Bool

namespace ShapeFold

def toTail : ShapeFold := ⟨.empty,[],"-1",none,false,false⟩

def upTo (offset : String) : ShapeFold := ⟨.empty,[],"-1",some offset,true,false⟩

/-- The rows in the order of first appearance. -/
def orderedRows (f : ShapeFold) : List (String × Json) :=
  f.order.filterMap fun k => (f.rows.get? k).map fun v => (k,v)

def past (f : ShapeFold) (e : StoredEnvelope) : Bool :=
  match f.until_,e.offset with
  | some target,some stamp => offsetAfter stamp target
  | _,_ => false

def applyEnvelope (f : ShapeFold) (e : Envelope) : ShapeFold :=
  if e.headers.operation = "delete" then { f with rows := f.rows.erase e.key }
  else
    match e.value with
    | some v =>
      let v := if f.keysOnly then .null else v
      { f with
        rows := f.rows.insert e.key v
        order := if (f.rows.get? e.key).isNone then f.order ++ [e.key] else f.order }
    | none => f

/-- The envelopes of a page; an error is the fold that stopped before one that is past the target. -/
def applyEnvelopes (f : ShapeFold) : List StoredEnvelope → Except ShapeFold ShapeFold
  | [] => .ok f
  | e::es => if f.past e then .error { f with done := true } else (f.applyEnvelope e.env).applyEnvelopes es

def applyPage (f : ShapeFold) (r : ShapePage) : ShapeFold :=
  match f.applyEnvelopes r.envelopes with
  | .error g => g
  | .ok g =>
    let advanced := r.nextOffset.any (· ≠ g.offset)
    { g with
      offset := if advanced then r.nextOffset.getD g.offset else g.offset
      done := if r.upToDate || r.closed || !advanced then true else g.done }

end ShapeFold

/-- A row's value as Postgres would print it. -/
def pgText (ft : FloatText) : Json → Json
  | .null => .null
  | .bool b => .string (if b then "true" else "false")
  | .string s => .string s
  | .int n => .string (toString n)
  | other => .string (String.ofList (other.chars ft))

def encodeValue (ft : FloatText) : Json → Json
  | .object fields => .object (fields.map fun f => (f.1,pgText ft f.2))
  | other => other

inductive ChangeOp where
  | insert
  | update
  | delete
  deriving DecidableEq

/-- A message of the client's log. -/
inductive ShapeMessage where
  | change (op : ChangeOp) (key : String) (value : Option Json) (txid : Option String)
  | upToDate

/-- The envelopes of a page as changes for a client that holds some keys, and the keys it holds then. -/
def applyChanges (ft : FloatText) (pkName : String) (keys : Finset String) :
    List Envelope → List ShapeMessage × Finset String
  | [] => ([],keys)
  | e::es =>
    if e.headers.operation = "delete" then
      if e.key ∈ keys then
        let value := (e.value.map (encodeValue ft)).getD (.object [(pkName,.string e.key)])
        let (messages,keys') := applyChanges ft pkName (keys.erase e.key) es
        (.change .delete e.key (some value) e.headers.txid::messages,keys')
      else applyChanges ft pkName keys es
    else
      let value := e.value.map (encodeValue ft)
      let op := if e.key ∈ keys then ChangeOp.update else .insert
      let (messages,keys') := applyChanges ft pkName (insert e.key keys) es
      (.change op e.key value e.headers.txid::messages,keys')

/-- The messages of a snapshot. -/
def snapshotMessages (ft : FloatText) (rows : List (String × Json)) : List ShapeMessage :=
  rows.map (fun r => .change .insert r.1 (some (encodeValue ft r.2)) none) ++ [.upToDate]

/-- What a handle remembers: the keys that its client holds, and the offset it was served last. -/
structure HandleState where
  keys : Finset String
  offset : String

/-- `positioned_read` once it has its page: the handle after it, and the messages and the offset of the
answer. There is none when the stream is closed. -/
def positionedRead (ft : FloatText) (pkName : String) (live : Bool) (h : HandleState) (r : ShapePage) :
    HandleState × Option (List ShapeMessage × String) :=
  if r.closed then (h,none)
  else
    let offset := r.nextOffset.getD h.offset
    if live && r.envelopes.isEmpty then ({ h with offset := offset },some ([.upToDate],offset))
    else
      let (messages,keys) := applyChanges ft pkName h.keys (r.envelopes.map (·.env))
      (⟨keys,offset⟩,some (messages ++ if r.upToDate then [.upToDate] else [],offset))

/-- A client takes a message: it refuses to insert a key that it holds, and to update or delete one that
it does not. -/
def ShapeMessage.apply (F : String → Option Json) : ShapeMessage → Option (String → Option Json)
  | change .insert key value _ => if F key = none then some (Function.update F key value) else none
  | change .update key value _ => if F key = none then none else some (Function.update F key value)
  | change .delete key _ _ => if F key = none then none else some (Function.update F key none)
  | upToDate => some F

def applyMessages (F : String → Option Json) (messages : List ShapeMessage) :
    Option (String → Option Json) := messages.foldlM ShapeMessage.apply F

/-- A shape's stream in storage: the stamps do not fall, none is after the tail, and every envelope that
is not a delete has a row. -/
structure ShapeStream where
  items : List (String × Envelope)
  tail : String
  closed : Bool
  sorted : items.Pairwise fun i j => offsetAfter i.1 j.1 = false
  below : ∀ i ∈ items, offsetAfter i.1 tail = false
  began : ∀ i ∈ items, i.1 ≠ "-1"
  rows : ∀ i ∈ items, i.2.headers.operation ≠ "delete" → i.2.value.isSome

namespace ShapeStream

/-- The envelopes up to an offset. -/
def upTo (s : ShapeStream) (o : String) : List Envelope :=
  (s.items.filter fun i => !offsetAfter i.1 o).map (·.2)

/-- One more envelope is stored, with a stamp after the tail. -/
def append (s : ShapeStream) (e : Envelope) (stamp tail : String) (hstamp : offsetAfter stamp s.tail = true)
    (htail : offsetAfter stamp tail = false) (hrow : e.headers.operation ≠ "delete" → e.value.isSome) :
    ShapeStream where
  items := s.items ++ [(stamp,e)]
  tail := tail
  closed := s.closed
  sorted := by
    refine List.pairwise_append.mpr ⟨s.sorted,List.pairwise_singleton _ _,fun i hi j hj => ?_⟩
    obtain rfl := List.mem_singleton.mp hj
    have hle := s.below i hi
    rw [offsetAfter_eq_false] at hle ⊢
    exact hle.trans ((offsetAfter_iff _ _).mp hstamp).le
  below := by
    intro i hi
    rcases List.mem_append.mp hi with hi | hi
    · have hle := s.below i hi
      rw [offsetAfter_eq_false] at hle htail ⊢
      exact hle.trans (((offsetAfter_iff _ _).mp hstamp).le.trans htail)
    · exact List.mem_singleton.mp hi ▸ htail
  began := by
    intro i hi
    rcases List.mem_append.mp hi with hi | hi
    · exact s.began i hi
    · obtain rfl := List.mem_singleton.mp hi
      rintro (rfl : stamp = "-1")
      simp [offsetAfter] at hstamp
  rows := by
    intro i hi
    rcases List.mem_append.mp hi with hi | hi
    · exact s.rows i hi
    · exact List.mem_singleton.mp hi ▸ hrow

/-- What storage may answer to a read from an offset: the envelopes from there to the next offset, wherever
it cuts; it says that a page is up to date, does not advance, or is closed only at the tail. -/
structure Reads (s : ShapeStream) (o : String) (r : ShapePage) : Prop where
  envelopes : r.envelopes = (s.items.filter fun i =>
    offsetAfter i.1 o && !offsetAfter i.1 (r.nextOffset.getD o)).map fun i => ⟨i.2,some i.1⟩
  forward : offsetAfter o (r.nextOffset.getD o) = false
  inside : offsetAfter (r.nextOffset.getD o) s.tail = false
  upToDate : r.upToDate = true → r.nextOffset.getD o = s.tail
  advances : r.nextOffset.getD o = o → o = s.tail
  closed : r.closed = true → s.closed = true ∧ r.nextOffset.getD o = s.tail

end ShapeStream

/-- What the rows of a stream look like to a client. -/
def clientView (ft : FloatText) (es : List Envelope) : String → Option Json :=
  fun k => (foldStream (fun _ => none) es k).map (encodeValue ft)

/-- What a client holds: an offset that it was answered with, and its rows then; none once a message did
not apply. -/
abbrev ClientLog := String × Option (String → Option Json)

/-- What the handle works on. -/
inductive AdapterPhase where
  | free
  | materializing (fold : ShapeFold)
  | rebuilding (client : ClientLog) (live : Bool) (fold : ShapeFold)
  | reading (client : ClientLog) (live : Bool) (at_ : String) (last : ShapePage)

/-- A shape's stream, the handle of one client, and all that the client has held. -/
structure ElectricAdapter where
  stream : ShapeStream
  handle : Option HandleState
  phase : AdapterPhase
  snapshot : Option (String × List ShapeMessage)
  held : List ClientLog

namespace ElectricAdapter

def new (stream : ShapeStream) : ElectricAdapter := ⟨stream,none,.free,none,[]⟩

/-- The answer to a client, if there is one: what it holds then. -/
def answer (s : ElectricAdapter) (client : ClientLog) (out : Option (List ShapeMessage × String)) :
    List ClientLog :=
  match out with
  | some (messages,offset) => s.held ++ [(offset,client.2.bind (applyMessages · messages))]
  | none => s.held

/-- The step that a condition will be put on, and the others. -/
inductive Act where
  | snapshot (upTo : String)
  | other

/-- One step of storage, or of the requests on the handle, which take turns. A request is for an offset that
the client was answered with, and may be dropped at any time. -/
inductive Step (ft : FloatText) (pkName : String) : ElectricAdapter → Act → ElectricAdapter → Prop where
  | append (s : ElectricAdapter) (e : Envelope) (stamp tail : String) (hopen : s.stream.closed = false)
    (hstamp : offsetAfter stamp s.stream.tail = true) (htail : offsetAfter stamp tail = false)
    (hrow : e.headers.operation ≠ "delete" → e.value.isSome) :
    Step ft pkName s .other { s with stream := s.stream.append e stamp tail hstamp htail hrow }
  | close (s : ElectricAdapter) :
    Step ft pkName s .other { s with stream := { s.stream with closed := true } }
  | askSnapshot (s : ElectricAdapter) (hfree : s.phase = .free) (hnone : s.handle = none) :
    Step ft pkName s .other { s with phase := .materializing .toTail }
  | readSnapshot (s : ElectricAdapter) {f : ShapeFold} {r : ShapePage} (h : s.phase = .materializing f)
    (hdone : f.done = false) (hr : s.stream.Reads f.offset r) :
    Step ft pkName s .other { s with phase := .materializing (f.applyPage r) }
  | answerSnapshot (s : ElectricAdapter) {f : ShapeFold} (h : s.phase = .materializing f)
    (hdone : f.done = true) :
    Step ft pkName s (.snapshot f.offset) { s with
      handle := some ⟨(f.orderedRows.map Prod.fst).toFinset,f.offset⟩
      phase := .free
      snapshot := some (f.offset,snapshotMessages ft f.orderedRows)
      held := [(f.offset,applyMessages (fun _ => none) (snapshotMessages ft f.orderedRows))] }
  | ask (s : ElectricAdapter) {h : HandleState} {client : ClientLog} (hfree : s.phase = .free)
    (hh : s.handle = some h) (hclient : client ∈ s.held) (hat : h.offset = client.1) (live : Bool) :
    Step ft pkName s .other { s with phase := .reading client live client.1 ⟨[],none,false,false⟩ }
  | askOlder (s : ElectricAdapter) {h : HandleState} {client : ClientLog} (hfree : s.phase = .free)
    (hh : s.handle = some h) (hclient : client ∈ s.held) (hat : h.offset ≠ client.1) (live : Bool) :
    Step ft pkName s .other { s with phase := .rebuilding client live (.upTo client.1) }
  | readKeys (s : ElectricAdapter) {client : ClientLog} {live : Bool} {f : ShapeFold} {r : ShapePage}
    (h : s.phase = .rebuilding client live f) (hdone : f.done = false) (hr : s.stream.Reads f.offset r) :
    Step ft pkName s .other { s with phase := .rebuilding client live (f.applyPage r) }
  | rebuilt (s : ElectricAdapter) {client : ClientLog} {live : Bool} {f : ShapeFold}
    (h : s.phase = .rebuilding client live f) (hdone : f.done = true) :
    Step ft pkName s .other { s with
      handle := some ⟨f.rows.keys.toFinset,client.1⟩
      phase := .reading client live client.1 ⟨[],none,false,false⟩ }
  /- A live request goes on over an empty page. -/
  | poll (s : ElectricAdapter) {client : ClientLog} {at_ : String} {last r : ShapePage}
    (h : s.phase = .reading client true at_ last) (hr : s.stream.Reads at_ r) (hopen : r.closed = false)
    (hempty : r.envelopes = []) :
    Step ft pkName s .other { s with phase := .reading client true (r.nextOffset.getD at_) r }
  | read (s : ElectricAdapter) {h : HandleState} {client : ClientLog} {live : Bool} {at_ : String}
    {last r : ShapePage} (hp : s.phase = .reading client live at_ last) (hh : s.handle = some h)
    (hr : s.stream.Reads at_ r) (hdata : live = false ∨ r.closed = true ∨ r.envelopes ≠ []) :
    Step ft pkName s .other { s with
      handle := some (positionedRead ft pkName live h r).1
      phase := .free
      held := s.answer client (positionedRead ft pkName live h r).2 }
  /- The live window ends, or the engine shuts down: the last page is the answer. -/
  | expire (s : ElectricAdapter) {h : HandleState} {client : ClientLog} {at_ : String} {last : ShapePage}
    (hp : s.phase = .reading client true at_ last) (hh : s.handle = some h) :
    Step ft pkName s .other { s with
      handle := some (positionedRead ft pkName true h last).1
      phase := .free
      held := s.answer client (positionedRead ft pkName true h last).2 }
  | drop (s : ElectricAdapter) : Step ft pkName s .other { s with phase := .free }

end ElectricAdapter

/-- A row of the key is stored, deleted, and stored again. -/
def Revived (es : List Envelope) (k : String) : Prop :=
  ∃ u d v : Envelope, [u,d,v].Sublist es ∧ (u.key = k ∧ u.headers.operation ≠ "delete") ∧
    (d.key = k ∧ d.headers.operation = "delete") ∧ v.key = k ∧ v.headers.operation ≠ "delete"

namespace ElectricAdapter

/-- The condition on a step: a snapshot is answered only if no row that the shape has at its offset was
deleted and inserted again before. -/
def Allowed (s : ElectricAdapter) : Act → Prop
  | .snapshot o => ∀ k, foldStream (fun _ => none) (s.stream.upTo o) k ≠ none →
    ¬Revived (s.stream.upTo o) k
  | .other => True

def Steps (ft : FloatText) (pkName : String) : ElectricAdapter → ElectricAdapter → Prop :=
  Relation.ReflTransGen fun s t => ∃ a, Step ft pkName s a t

/-- A run whose steps all meet the condition. -/
def GuardedSteps (ft : FloatText) (pkName : String) : ElectricAdapter → ElectricAdapter → Prop :=
  Relation.ReflTransGen fun s t => ∃ a, s.Allowed a ∧ Step ft pkName s a t

end ElectricAdapter

namespace ShapeStream
variable {s : ShapeStream}

lemma upTo_append (e : Envelope) (stamp tail : String) (hstamp : offsetAfter stamp s.tail = true)
    (htail : offsetAfter stamp tail = false) (hrow : e.headers.operation ≠ "delete" → e.value.isSome)
    {o : String} (ho : offsetAfter o s.tail = false) :
    (s.append e stamp tail hstamp htail hrow).upTo o = s.upTo o := by
  have hafter : offsetAfter stamp o = true := by
    rw [offsetAfter_eq_false] at ho
    rw [offsetAfter_iff] at hstamp ⊢
    exact ho.trans_lt hstamp
  simp [upTo,append,List.filter_append,hafter]

/-- A filter of a list that keeps a first part, and one that keeps more. -/
lemma filter_split {α : Type*} {R : α → α → Prop} {l : List α} (hl : l.Pairwise R) {p q : α → Bool}
    (hpq : ∀ i ∈ l, p i = true → q i = true) (hdown : ∀ i j, R i j → p j = true → p i = true) :
    l.filter q = l.filter p ++ l.filter fun i => q i && !p i := by
  induction l with
  | nil => rfl
  | cons i l ih =>
    obtain ⟨hi,hl⟩ := List.pairwise_cons.mp hl
    obtain ⟨hpqi,hpq⟩ := List.forall_mem_cons.mp hpq
    by_cases hp : p i = true
    · rw [List.filter_cons_of_pos (hpqi hp),List.filter_cons_of_pos hp,
        List.filter_cons_of_neg (by simp [hp]),ih hl hpq,List.cons_append]
    · have hnone : ∀ j ∈ i::l, p j = false := by
        intro j hj
        rcases List.mem_cons.mp hj with rfl | hj
        · exact Bool.eq_false_iff.mpr hp
        · exact Bool.eq_false_iff.mpr fun hpj => hp (hdown i j (hi j hj) hpj)
      have hempty : (i::l).filter p = [] := List.filter_eq_nil_iff.mpr fun j hj => by simp [hnone j hj]
      rw [hempty,List.nil_append]
      exact List.filter_congr fun j hj => by simp [hnone j hj]

/-- The first part of a list, as long as a test that fails for good does not fail. -/
lemma takeWhile_eq_filter {α : Type*} {R : α → α → Prop} {l : List α} (hl : l.Pairwise R)
    {p : α → Bool} (hdown : ∀ i j, R i j → p j = true → p i = true) : l.takeWhile p = l.filter p := by
  induction l with
  | nil => rfl
  | cons i l ih =>
    obtain ⟨hi,hl⟩ := List.pairwise_cons.mp hl
    by_cases hp : p i = true
    · rw [List.takeWhile_cons_of_pos hp,List.filter_cons_of_pos hp,ih hl]
    · rw [List.takeWhile_cons_of_neg hp,List.filter_cons_of_neg hp]
      exact (List.filter_eq_nil_iff.mpr fun j hj hpj => hp (hdown i j (hi j hj) hpj)).symm

lemma offset_mono {i j o : String} (hij : offsetAfter i j = false) (hj : (!offsetAfter j o) = true) :
    (!offsetAfter i o) = true := by
  rw [offsetAfter_eq_false] at hij
  rw [Bool.not_eq_true',offsetAfter_eq_false] at hj ⊢
  exact hij.trans hj

/-- The envelopes up to an offset are those up to an earlier one and those between them. -/
lemma upTo_split (s : ShapeStream) {o n : String}
    (h : ∀ i ∈ s.items, offsetAfter i.1 o = false → offsetAfter i.1 n = false) :
    s.upTo n = s.upTo o ++
      (s.items.filter fun i => offsetAfter i.1 o && !offsetAfter i.1 n).map (·.2) := by
  have hsplit := filter_split s.sorted (p := fun i => !offsetAfter i.1 o)
    (q := fun i => !offsetAfter i.1 n) (fun i hi hp => by simpa using h i hi (by simpa using hp))
    (fun i j hij hp => offset_mono hij hp)
  rw [upTo,hsplit,List.map_append]
  refine congrArg (fun l => (s.items.filter _).map Prod.snd ++ List.map Prod.snd l) ?_
  exact List.filter_congr fun i _ => by simp [Bool.and_comm]

lemma upTo_begin (s : ShapeStream) : s.upTo "-1" = [] := by
  refine List.map_eq_nil_iff.mpr (List.filter_eq_nil_iff.mpr fun i hi => ?_)
  simp [offsetAfter,s.began i hi]

lemma row_of_mem {o : String} {e : Envelope} (he : e ∈ s.upTo o)
    (hop : e.headers.operation ≠ "delete") : e.value.isSome := by
  obtain ⟨i,hi,rfl⟩ := List.mem_map.mp he
  exact s.rows i (List.mem_filter.mp hi).1 hop

end ShapeStream

/-- A row of the key is stored and deleted. -/
def StoredThenDeleted (es : List Envelope) (k : String) : Prop :=
  ∃ u d : Envelope, [u,d].Sublist es ∧ (u.key = k ∧ u.headers.operation ≠ "delete") ∧
    d.key = k ∧ d.headers.operation = "delete"

lemma StoredThenDeleted.append {es : List Envelope} {k : String} (h : StoredThenDeleted es k) (es' : List Envelope) :
    StoredThenDeleted (es ++ es') k := by
  obtain ⟨u,d,hsub,h⟩ := h
  exact ⟨u,d,hsub.trans (List.sublist_append_left _ _),h⟩

lemma Revived.append {es : List Envelope} {k : String} (h : Revived es k) (es' : List Envelope) :
    Revived (es ++ es') k := by
  obtain ⟨u,d,v,hsub,h⟩ := h
  exact ⟨u,d,v,hsub.trans (List.sublist_append_left _ _),h⟩

lemma foldStream_snoc (F : String → Option Json) (es : List Envelope) (e : Envelope) :
    foldStream F (es ++ [e]) = foldEnvelope (foldStream F es) e := by
  rw [foldStream_append]
  rfl

/-- A key with a row was stored. -/
lemma stored_of_live {es : List Envelope} {k : String} (h : foldStream (fun _ => none) es k ≠ none) :
    ∃ u ∈ es, u.key = k ∧ u.headers.operation ≠ "delete" := by
  induction es using List.reverseRecOn with
  | nil => exact absurd rfl h
  | append_singleton es e ih =>
    rw [foldStream_snoc,foldEnvelope] at h
    split_ifs at h with hk hop
    · exact absurd rfl h
    · exact ⟨e,List.mem_append_right _ (.head _),hk.symm,hop⟩
    · obtain ⟨u,hu,hkey⟩ := ih h
      exact ⟨u,List.mem_append_left _ hu,hkey⟩

namespace ShapeFold

/-- What the fold keeps of a row. -/
def keep (f : ShapeFold) (v : Json) : Json := if f.keysOnly then .null else v

/-- What the fold has after some envelopes: their rows, and their keys in an order in which a key comes
again only if it was stored again after a deletion. -/
structure Shows (f : ShapeFold) (es : List Envelope) : Prop where
  rows : ∀ k, f.rows.get? k = (foldStream (fun _ => none) es k).map f.keep
  live : ∀ k, foldStream (fun _ => none) es k ≠ none → k ∈ f.order
  dropped : ∀ k ∈ f.order, foldStream (fun _ => none) es k = none → StoredThenDeleted es k
  revived : ∀ k, 2 ≤ f.order.count k → Revived es k

lemma shows_toTail : toTail.Shows [] := ⟨fun _ => rfl,by simp,by simp [toTail],by simp [toTail]⟩

lemma shows_upTo (o : String) : (upTo o).Shows [] := ⟨fun _ => rfl,by simp,by simp [upTo],by simp [upTo]⟩

lemma Shows.delete {f : ShapeFold} {es : List Envelope} (h : f.Shows es) {e : Envelope}
    (hop : e.headers.operation = "delete") :
    ShapeFold.Shows { f with rows := f.rows.erase e.key } (es ++ [e]) := by
  have hfold : ∀ k, foldStream (fun _ => none) (es ++ [e]) k =
      if k = e.key then none else foldStream (fun _ => none) es k := by
    intro k
    rw [foldStream_snoc,foldEnvelope,if_pos hop]
  refine ⟨fun k => ?_,fun k hk => ?_,fun k hk hnone => ?_,fun k hk => (h.revived k hk).append _⟩
  · rw [hfold]
    by_cases hkey : k = e.key
    · rw [if_pos hkey,hkey]
      exact AssocMap.get?_erase_self _ _
    · rw [if_neg hkey]
      refine Eq.trans ?_ (h.rows k)
      rw [AssocMap.get?_erase,if_neg (by simpa using Ne.symm hkey)]
  · rw [hfold] at hk
    split_ifs at hk
    · exact absurd rfl hk
    · exact h.live k hk
  · by_cases hlive : foldStream (fun _ => none) es k = none
    · exact (h.dropped k hk hlive).append _
    · rw [hfold] at hnone
      split_ifs at hnone with hkey
      · obtain ⟨u,hu,hstored⟩ := stored_of_live hlive
        exact ⟨u,e,(List.singleton_sublist.mpr hu).append (List.Sublist.refl [e]),hstored,hkey.symm,hop⟩
      · exact absurd hnone hlive

lemma Shows.upsert {f : ShapeFold} {es : List Envelope} (h : f.Shows es) {e : Envelope} {v : Json}
    (hop : e.headers.operation ≠ "delete") (hv : e.value = some v) :
    ShapeFold.Shows { f with
      rows := f.rows.insert e.key (f.keep v)
      order := if (f.rows.get? e.key).isNone then f.order ++ [e.key] else f.order } (es ++ [e]) := by
  have hfold : ∀ k, foldStream (fun _ => none) (es ++ [e]) k =
      if k = e.key then some v else foldStream (fun _ => none) es k := by
    intro k
    rw [foldStream_snoc,foldEnvelope,if_neg hop,hv]
  have hlive : (f.rows.get? e.key).isNone ↔ foldStream (fun _ => none) es e.key = none := by
    simp [h.rows]
  refine ⟨fun k => ?_,fun k hk => ?_,fun k hk hnone => ?_,fun k hk => ?_⟩
  · rw [hfold]
    by_cases hkey : k = e.key
    · rw [if_pos hkey,hkey]
      exact AssocMap.get?_insert_self _ _ _
    · rw [if_neg hkey]
      refine Eq.trans ?_ (h.rows k)
      rw [AssocMap.get?_insert_eq,if_neg (Ne.symm hkey)]
  · rw [hfold] at hk
    dsimp only
    by_cases hkey : k = e.key
    · split_ifs with hnew
      · exact hkey ▸ List.mem_append_right _ (.head _)
      · exact hkey ▸ h.live e.key fun hn => hnew (hlive.mpr hn)
    · rw [if_neg hkey] at hk
      split_ifs
      · exact List.mem_append_left _ (h.live k hk)
      · exact h.live k hk
  · rw [hfold] at hnone
    split_ifs at hnone with hkey
    refine (h.dropped k ?_ hnone).append _
    dsimp only at hk
    split_ifs at hk
    · exact (List.mem_append.mp hk).resolve_right fun hm => hkey (List.mem_singleton.mp hm)
    · exact hk
  · dsimp only at hk
    split_ifs at hk with hnew
    · by_cases hold : 2 ≤ f.order.count k
      · exact (h.revived k hold).append _
      · -- the key came once before, and has no row: it was deleted in between
        have hkey : e.key = k := by
          by_contra hne
          rw [List.count_append,List.count_singleton,if_neg (by simpa using hne)] at hk
          exact hold hk
        rw [hkey,List.count_append,List.count_singleton_self] at hk
        obtain ⟨u,d,hsub,hu,hd⟩ := h.dropped k (List.count_pos_iff.mp (by omega)) (hkey ▸ hlive.mp hnew)
        exact ⟨u,d,e,hsub.append (List.Sublist.refl [e]),hu,hd,hkey,hop⟩
    · exact (h.revived k hk).append _

lemma Shows.applyEnvelope {f : ShapeFold} {es : List Envelope} (h : f.Shows es) {e : Envelope}
    (hrow : e.headers.operation ≠ "delete" → e.value.isSome) :
    (f.applyEnvelope e).Shows (es ++ [e]) := by
  unfold ShapeFold.applyEnvelope
  by_cases hop : e.headers.operation = "delete"
  · rw [if_pos hop]
    exact h.delete hop
  · obtain ⟨v,hv⟩ := Option.isSome_iff_exists.mp (hrow hop)
    rw [if_neg hop,hv]
    exact h.upsert hop hv

lemma Shows.applyAll {f : ShapeFold} {es : List Envelope} (h : f.Shows es) (es' : List Envelope)
    (hrow : ∀ e ∈ es', e.headers.operation ≠ "delete" → e.value.isSome) :
    (es'.foldl ShapeFold.applyEnvelope f).Shows (es ++ es') := by
  induction es' generalizing f es with
  | nil => rwa [List.append_nil]
  | cons e es' ih =>
    obtain ⟨he,hes⟩ := List.forall_mem_cons.mp hrow
    rw [List.foldl_cons,List.append_cons]
    exact ih (h.applyEnvelope he) hes

/-- The rows and their order are all that envelopes change. -/
lemma applyAll_eq (f : ShapeFold) (es : List Envelope) :
    ∃ rows order, es.foldl ShapeFold.applyEnvelope f = { f with rows := rows, order := order } := by
  induction es using List.reverseRecOn with
  | nil => exact ⟨f.rows,f.order,rfl⟩
  | append_singleton es e ih =>
    obtain ⟨rows,order,heq⟩ := ih
    rw [List.foldl_append,heq]
    simp only [List.foldl_cons,List.foldl_nil,ShapeFold.applyEnvelope]
    split_ifs
    · exact ⟨_,_,rfl⟩
    all_goals
      cases e.value with
      | none => exact ⟨_,_,rfl⟩
      | some v => exact ⟨_,_,rfl⟩

lemma past_applyEnvelope (f : ShapeFold) (e : Envelope) : (f.applyEnvelope e).past = f.past := by
  obtain ⟨rows,order,heq⟩ := applyAll_eq f [e]
  rw [List.foldl_cons,List.foldl_nil] at heq
  rw [heq]
  rfl

/-- The envelopes before the first one that is past the target are applied. -/
lemma applyEnvelopes_eq (f : ShapeFold) (es : List StoredEnvelope) :
    f.applyEnvelopes es = if es.any f.past then
      .error { ((es.takeWhile (!f.past ·)).map (·.env)).foldl ShapeFold.applyEnvelope f with done := true }
    else .ok ((es.map (·.env)).foldl ShapeFold.applyEnvelope f) := by
  induction es generalizing f with
  | nil => rfl
  | cons e es ih =>
    rw [applyEnvelopes,ih,past_applyEnvelope]
    by_cases hp : f.past e = true
    · simp [hp]
    · simp [hp]

/-- What the fold stands for. -/
def covers (f : ShapeFold) (s : ShapeStream) : List Envelope :=
  s.upTo (if f.done then f.until_.getD f.offset else f.offset)

/-- The fold shows the stream up to its offset, and, once it is done, up to the target. -/
structure Inv (s : ShapeStream) (f : ShapeFold) : Prop where
  below : offsetAfter f.offset s.tail = false
  shows : f.Shows (f.covers s)
  before : f.done = false → ∀ t ∈ f.until_, ∀ i ∈ s.items,
    offsetAfter i.1 f.offset = false → offsetAfter i.1 t = false

lemma past_stored (f : ShapeFold) (i : String × Envelope) :
    f.past ⟨i.2,some i.1⟩ = f.until_.any fun t => offsetAfter i.1 t := by
  unfold past
  cases f.until_ <;> rfl

/-- The fold stops inside a page. -/
lemma Inv.stop {s : ShapeStream} {f : ShapeFold} (h : f.Inv s) (hdone : f.done = false) {r : ShapePage}
    (hr : s.Reads f.offset r) (hpast : r.envelopes.any f.past = true) :
    ShapeFold.Inv s
      { ((r.envelopes.takeWhile (!f.past ·)).map (·.env)).foldl ShapeFold.applyEnvelope f with
        done := true } := by
  obtain ⟨e,he,hp⟩ := List.any_eq_true.mp hpast
  rw [hr.envelopes] at he
  obtain ⟨i,hi,rfl⟩ := List.mem_map.mp he
  obtain ⟨hi,hbetween⟩ := List.mem_filter.mp hi
  rw [past_stored] at hp
  cases hu : f.until_ with
  | none => simp [hu] at hp
  | some t =>
    rw [hu,Option.any_some] at hp
    rw [Bool.and_eq_true] at hbetween
    -- what is not past the target is before the end of the page
    have htaken : (r.envelopes.takeWhile (!f.past ·)).map (·.env) =
        (s.items.filter fun j => offsetAfter j.1 f.offset && !offsetAfter j.1 t).map (·.2) := by
      have hpred : (fun e => !f.past e) ∘ (fun j : String × Envelope => (⟨j.2,some j.1⟩ : StoredEnvelope)) =
          fun j => !offsetAfter j.1 t := by
        funext j
        simp [past_stored,hu]
      rw [hr.envelopes,List.takeWhile_map,hpred,List.map_map,
        ShapeStream.takeWhile_eq_filter (s.sorted.filter _) fun _ _ => ShapeStream.offset_mono,
        List.filter_filter]
      refine congrArg (List.map _) (List.filter_congr fun j _ => ?_)
      by_cases hj : offsetAfter j.1 t = true
      · simp [hj]
      · have hn : offsetAfter j.1 (r.nextOffset.getD f.offset) = false := by
          have hle := hbetween.2
          rw [Bool.not_eq_true',offsetAfter_eq_false] at hle
          rw [Bool.not_eq_true,offsetAfter_eq_false] at hj
          rw [offsetAfter_iff] at hp
          exact (offsetAfter_eq_false _ _).mpr (hj.trans (hp.le.trans hle))
        simp [hj,hn]
    obtain ⟨rows,order,heq⟩ := applyAll_eq f ((r.envelopes.takeWhile (!f.past ·)).map (·.env))
    have hshows := h.shows.applyAll ((r.envelopes.takeWhile (!f.past ·)).map (·.env)) fun e he => by
      rw [htaken] at he
      obtain ⟨j,hj,rfl⟩ := List.mem_map.mp he
      exact s.rows j (List.mem_filter.mp hj).1
    rw [covers,hdone,if_neg (by simp),htaken,← s.upTo_split (h.before hdone t hu),← htaken,heq] at hshows
    rw [heq]
    refine ⟨h.below,?_,by simp⟩
    simp only [covers,hu,Option.getD_some,if_true]
    exact ⟨hshows.rows,hshows.live,hshows.dropped,hshows.revived⟩

/-- The fold takes a whole page. -/
lemma Inv.page {s : ShapeStream} {f : ShapeFold} (h : f.Inv s) (hdone : f.done = false) {r : ShapePage}
    (hr : s.Reads f.offset r) (hpast : r.envelopes.any f.past = false) (done : Bool)
    (htail : done = true → r.nextOffset.getD f.offset = s.tail) :
    ShapeFold.Inv s
      { (r.envelopes.map (·.env)).foldl ShapeFold.applyEnvelope f with
        offset := r.nextOffset.getD f.offset
        done := done } := by
  have hforward : ∀ i ∈ s.items, offsetAfter i.1 f.offset = false →
      offsetAfter i.1 (r.nextOffset.getD f.offset) = false := by
    intro i _ hi
    have hle := hr.forward
    rw [offsetAfter_eq_false] at hi hle ⊢
    exact hi.trans hle
  have hbefore : ∀ t ∈ f.until_, ∀ i ∈ s.items,
      offsetAfter i.1 (r.nextOffset.getD f.offset) = false → offsetAfter i.1 t = false := by
    intro t ht i hi hle
    by_cases hold : offsetAfter i.1 f.offset = true
    · have hmem : (⟨i.2,some i.1⟩ : StoredEnvelope) ∈ r.envelopes := by
        rw [hr.envelopes]
        exact List.mem_map.mpr ⟨i,List.mem_filter.mpr ⟨hi,by simp [hold,hle]⟩,rfl⟩
      have hnot := List.any_eq_false.mp hpast _ hmem
      rw [past_stored,ht] at hnot
      simpa using hnot
    · exact h.before hdone t ht i hi (Bool.eq_false_iff.mpr hold)
  have hpage : r.envelopes.map (·.env) = (s.items.filter fun i =>
      offsetAfter i.1 f.offset && !offsetAfter i.1 (r.nextOffset.getD f.offset)).map (·.2) := by
    rw [hr.envelopes,List.map_map]
    rfl
  obtain ⟨rows,order,heq⟩ := applyAll_eq f (r.envelopes.map (·.env))
  have hshows := h.shows.applyAll (r.envelopes.map (·.env)) fun e he => by
    rw [hpage] at he
    obtain ⟨j,hj,rfl⟩ := List.mem_map.mp he
    exact s.rows j (List.mem_filter.mp hj).1
  rw [covers,hdone,if_neg (by simp),hpage,← s.upTo_split hforward,← hpage,heq] at hshows
  rw [heq]
  refine ⟨hr.inside,?_,fun _ => hbefore⟩
  have hcovers : s.upTo (if done = true then f.until_.getD (r.nextOffset.getD f.offset) else
      r.nextOffset.getD f.offset) = s.upTo (r.nextOffset.getD f.offset) := by
    split_ifs with hd
    · cases hu : f.until_ with
      | none => rfl
      | some t =>
        refine congrArg (List.map _) (List.filter_congr fun i hi => ?_)
        have hle : offsetAfter i.1 (r.nextOffset.getD f.offset) = false := htail hd ▸ s.below i hi
        simp [hle,hbefore t hu i hi hle]
    · rfl
  simp only [covers]
  rw [hcovers]
  exact ⟨hshows.rows,hshows.live,hshows.dropped,hshows.revived⟩

lemma Inv.applyPage {s : ShapeStream} {f : ShapeFold} (h : f.Inv s) (hdone : f.done = false)
    {r : ShapePage} (hr : s.Reads f.offset r) : (f.applyPage r).Inv s := by
  obtain ⟨rows,order,heq⟩ := applyAll_eq f (r.envelopes.map (·.env))
  rw [ShapeFold.applyPage,applyEnvelopes_eq]
  by_cases hpast : r.envelopes.any f.past = true
  · rw [if_pos hpast]
    exact h.stop hdone hr hpast
  · rw [if_neg hpast]
    have hpage := fun done => h.page hdone hr (Bool.eq_false_iff.mpr hpast) done
    rw [heq] at hpage ⊢
    have hoffset : (if r.nextOffset.any (· ≠ f.offset) then r.nextOffset.getD f.offset else f.offset) =
        r.nextOffset.getD f.offset := by
      split_ifs with hadvanced
      · rfl
      · cases hn : r.nextOffset with
        | none => rfl
        | some n =>
          rw [hn,Option.any_some,decide_eq_true_eq,not_not] at hadvanced
          exact hadvanced.symm
    dsimp only
    rw [hoffset]
    refine hpage _ fun hd => ?_
    rw [hdone] at hd
    split_ifs at hd with hend
    rw [Bool.or_eq_true,Bool.or_eq_true] at hend
    rcases hend with (hup | hclosed) | hstays
    · exact hr.upToDate hup
    · exact (hr.closed hclosed).2
    · have hsame : r.nextOffset.getD f.offset = f.offset := by
        rw [← hoffset,if_neg (by simpa using hstays)]
      exact hsame.trans (hr.advances hsame)

/-- A page changes neither the target nor what is kept of a row. -/
lemma applyPage_target (f : ShapeFold) (r : ShapePage) :
    (f.applyPage r).until_ = f.until_ ∧ (f.applyPage r).keysOnly = f.keysOnly := by
  rw [ShapeFold.applyPage,applyEnvelopes_eq]
  split_ifs
  · obtain ⟨rows,order,heq⟩ := applyAll_eq f ((r.envelopes.takeWhile (!f.past ·)).map (·.env))
    rw [heq]
    exact ⟨rfl,rfl⟩
  · obtain ⟨rows,order,heq⟩ := applyAll_eq f (r.envelopes.map (·.env))
    rw [heq]
    exact ⟨rfl,rfl⟩

end ShapeFold

section
variable (ft : FloatText) (pkName : String)

lemma applyMessages_cons (F : String → Option Json) (m : ShapeMessage) (ms : List ShapeMessage) :
    applyMessages F (m::ms) = (m.apply F).bind (applyMessages · ms) := rfl

/-- A message that says nothing of rows may follow any others. -/
lemma applyMessages_upToDate {F G : String → Option Json} {ms : List ShapeMessage}
    (h : applyMessages F ms = some G) : applyMessages F (ms ++ [.upToDate]) = some G := by
  rw [applyMessages,List.foldlM_append]
  exact (congrArg (· >>= _) h).trans rfl

/-- The rows of the encoded view after one more envelope. -/
lemma update_view (F : String → Option Json) (e : Envelope) :
    (fun k => (foldEnvelope F e k).map (encodeValue ft)) = Function.update
      (fun k => (F k).map (encodeValue ft)) e.key
      (if e.headers.operation = "delete" then none else e.value.map (encodeValue ft)) := by
  funext k
  by_cases hk : k = e.key
  · subst hk
    rw [Function.update_self,foldEnvelope,if_pos rfl]
    split_ifs <;> rfl
  · rw [Function.update_of_ne hk,foldEnvelope,if_neg hk]

/-- Classified against the keys that the client holds, the envelopes are changes that apply, and lead from
the rows before them to the rows after them. -/
lemma applyChanges_spec (es : List Envelope) (keys : Finset String) (F : String → Option Json)
    (hrow : ∀ e ∈ es, e.headers.operation ≠ "delete" → e.value.isSome)
    (hkeys : ∀ k, k ∈ keys ↔ F k ≠ none) :
    applyMessages (fun k => (F k).map (encodeValue ft)) (applyChanges ft pkName keys es).1 =
      some (fun k => (foldStream F es k).map (encodeValue ft)) ∧
    ∀ k, k ∈ (applyChanges ft pkName keys es).2 ↔ foldStream F es k ≠ none := by
  induction es generalizing keys F with
  | nil => exact ⟨rfl,hkeys⟩
  | cons e es ih =>
    obtain ⟨he,hes⟩ := List.forall_mem_cons.mp hrow
    have hview := update_view ft F e
    rw [foldStream,List.foldl_cons,← foldStream,applyChanges]
    by_cases hop : e.headers.operation = "delete"
    · rw [if_pos hop] at hview ⊢
      have hfold : ∀ k, foldEnvelope F e k = if k = e.key then none else F k := by
        intro k
        rw [foldEnvelope,if_pos hop]
      by_cases hmem : e.key ∈ keys
      · have hrest := ih (keys.erase e.key) (foldEnvelope F e) hes fun k => by
          rw [Finset.mem_erase,hkeys,hfold]
          by_cases hk : k = e.key <;> simp [hk]
        rw [if_pos hmem]
        refine ⟨?_,hrest.2⟩
        rw [applyMessages_cons,ShapeMessage.apply,if_neg (by simpa using (hkeys _).mp hmem),
          Option.bind_some,← hview]
        exact hrest.1
      · -- the client does not hold the key: it gets no message
        have hsame : foldEnvelope F e = F := by
          funext k
          rw [hfold]
          split_ifs with hk
          · exact hk ▸ (not_not.mp fun hn => hmem ((hkeys _).mpr hn)).symm
          · rfl
        rw [if_neg hmem,hsame]
        exact ih keys F hes hkeys
    · obtain ⟨v,hv⟩ := Option.isSome_iff_exists.mp (he hop)
      rw [if_neg hop] at hview ⊢
      have hrest := ih (insert e.key keys) (foldEnvelope F e) hes fun k => by
        rw [Finset.mem_insert,hkeys,foldEnvelope,if_neg hop,hv]
        by_cases hk : k = e.key <;> simp [hk]
      refine ⟨?_,hrest.2⟩
      dsimp only
      rw [applyMessages_cons]
      have happly : (ShapeMessage.change (if e.key ∈ keys then .update else .insert) e.key
          (e.value.map (encodeValue ft)) e.headers.txid).apply (fun k => (F k).map (encodeValue ft)) =
          some (fun k => (foldEnvelope F e k).map (encodeValue ft)) := by
        rw [hview]
        by_cases hmem : e.key ∈ keys
        · rw [if_pos hmem,ShapeMessage.apply,if_neg (by simpa using (hkeys _).mp hmem)]
        · rw [if_neg hmem,ShapeMessage.apply,if_pos (by simpa using (hkeys e.key).not.mp hmem)]
      rw [happly,Option.bind_some]
      exact hrest.1

/-- Inserts of keys that are all different, and that the client does not hold. -/
lemma applyMessages_inserts (rows : List (String × Json)) (hrows : (rows.map Prod.fst).Nodup)
    (F : String → Option Json) (hnew : ∀ r ∈ rows, F r.1 = none) :
    ∃ G, applyMessages F (snapshotMessages ft rows) = some G ∧
      (∀ r ∈ rows, G r.1 = some (encodeValue ft r.2)) ∧ ∀ k, k ∉ rows.map Prod.fst → G k = F k := by
  induction rows generalizing F with
  | nil => exact ⟨F,rfl,by simp,fun _ _ => rfl⟩
  | cons r rows ih =>
    obtain ⟨hr,hrows⟩ := List.nodup_cons.mp hrows
    obtain ⟨hrnew,hnew⟩ := List.forall_mem_cons.mp hnew
    have hother : ∀ r' ∈ rows, r'.1 ≠ r.1 := fun r' hr' he => hr (List.mem_map.mpr ⟨r',hr',he⟩)
    obtain ⟨G,hG,hmem,hrest⟩ := ih hrows (Function.update F r.1 (some (encodeValue ft r.2)))
      fun r' hr' => (Function.update_of_ne (hother r' hr') _ _).trans (hnew r' hr')
    refine ⟨G,?_,List.forall_mem_cons.mpr ⟨?_,hmem⟩,fun k hk => ?_⟩
    · rw [snapshotMessages,List.map_cons,List.cons_append,applyMessages_cons,ShapeMessage.apply,
        if_pos hrnew]
      exact hG
    · exact (hrest r.1 hr).trans (Function.update_self _ _ _)
    · rw [List.map_cons,List.mem_cons,not_or] at hk
      exact (hrest k hk.2).trans (Function.update_of_ne hk.1 _ _)

end

namespace ShapeFold

/-- A key stands in the ordered rows as often as in the order, if it has a row. -/
lemma count_orderedRows (f : ShapeFold) (k : String) :
    (f.orderedRows.map Prod.fst).count k = if (f.rows.get? k).isSome then f.order.count k else 0 := by
  unfold orderedRows
  induction f.order with
  | nil => simp
  | cons k' order ih =>
    cases hk' : f.rows.get? k' with
    | none =>
      rw [List.filterMap_cons_none (by simp [hk']),ih]
      by_cases hk : k' = k
      · simp [← hk,hk']
      · rw [List.count_cons_of_ne hk]
    | some v =>
      rw [List.filterMap_cons_some (b := (k',v)) (by simp [hk']),List.map_cons]
      by_cases hk : k' = k
      · subst hk
        rw [List.count_cons_self,List.count_cons_self,ih]
        simp [hk']
      · rw [List.count_cons_of_ne hk,List.count_cons_of_ne hk,ih]

lemma mem_orderedRows {f : ShapeFold} {k : String} {v : Json} :
    (k,v) ∈ f.orderedRows ↔ k ∈ f.order ∧ f.rows.get? k = some v := by
  simp only [orderedRows,List.mem_filterMap,Option.map_eq_some_iff,Prod.mk.injEq]
  constructor
  · rintro ⟨k',hk',v',hv',rfl,rfl⟩
    exact ⟨hk',hv'⟩
  · rintro ⟨hk,hv⟩
    exact ⟨k,hk,v,hv,rfl,rfl⟩

/-- The keys of a snapshot: every key with a row, and none of them twice unless it was revived. -/
lemma Shows.count {f : ShapeFold} {es : List Envelope} (h : f.Shows es)
    (hes : ∀ k, foldStream (fun _ => none) es k ≠ none → ¬Revived es k) (k : String) :
    (f.orderedRows.map Prod.fst).count k =
      if foldStream (fun _ => none) es k = none then 0 else 1 := by
  rw [count_orderedRows,h.rows]
  by_cases hlive : foldStream (fun _ => none) es k = none
  · simp [hlive]
  · have hpos := List.count_pos_iff.mpr (h.live k hlive)
    have hle : ¬2 ≤ f.order.count k := fun htwo => hes k hlive (h.revived k htwo)
    rw [if_neg hlive,if_pos (by simpa [Option.isSome_iff_ne_none] using hlive)]
    omega

/-- A snapshot that lists no key twice leads a client to the rows. -/
lemma Shows.snapshot (ft : FloatText) {f : ShapeFold} {es : List Envelope} (h : f.Shows es)
    (hkeep : f.keysOnly = false)
    (hes : ∀ k, foldStream (fun _ => none) es k ≠ none → ¬Revived es k) :
    applyMessages (fun _ => none) (snapshotMessages ft f.orderedRows) = some (clientView ft es) := by
  have hnodup : (f.orderedRows.map Prod.fst).Nodup := by
    refine List.nodup_iff_count_le_one.mpr fun k => ?_
    rw [h.count hes]
    split_ifs <;> omega
  have hget : ∀ k, f.rows.get? k = foldStream (fun _ => none) es k := by
    intro k
    rw [h.rows]
    cases foldStream (fun _ => none) es k <;> simp [keep,hkeep]
  obtain ⟨G,hG,hmem,hrest⟩ := applyMessages_inserts ft f.orderedRows hnodup (fun _ => none) fun _ _ => rfl
  rw [hG]
  refine congrArg some (funext fun k => ?_)
  cases hk : foldStream (fun _ => none) es k with
  | none =>
    rw [clientView,hk]
    refine hrest k fun hm => ?_
    obtain ⟨⟨k',v⟩,hv,rfl⟩ := List.mem_map.mp hm
    have hrow := (mem_orderedRows.mp hv).2
    rw [hget,hk] at hrow
    cases hrow
  | some v =>
    rw [clientView,hk]
    exact hmem (k,v) (mem_orderedRows.mpr ⟨h.live k (by simp [hk]),(hget k).trans hk⟩)

end ShapeFold

/-- The keys that messages insert. -/
def insertedKeys (messages : List ShapeMessage) : List String :=
  messages.filterMap fun
    | .change .insert key _ _ => some key
    | _ => none

lemma insertedKeys_snapshot (ft : FloatText) (rows : List (String × Json)) :
    insertedKeys (snapshotMessages ft rows) = rows.map Prod.fst := by
  induction rows with
  | nil => rfl
  | cons r rows ih => exact congrArg (r.1::·) ih

/-- The rows of a stream up to an offset. -/
def ShapeStream.rowsAt (s : ShapeStream) (o : String) : String → Option Json :=
  foldStream (fun _ => none) (s.upTo o)

/-- The handle has the keys of the rows at its offset. -/
structure HandleState.Inv (s : ShapeStream) (h : HandleState) : Prop where
  below : offsetAfter h.offset s.tail = false
  keys : ∀ k, k ∈ h.keys ↔ s.rowsAt h.offset k ≠ none

/-- The client has the rows at its offset. -/
structure Holds (ft : FloatText) (s : ShapeStream) (client : ClientLog) : Prop where
  below : offsetAfter client.1 s.tail = false
  view : client.2 = some (clientView ft (s.upTo client.1))

section
variable {ft : FloatText} {s : ShapeStream}

/-- An answer to a page that has the envelopes from the handle's offset on. -/
lemma positionedRead_spec {h : HandleState} (hh : h.Inv s) {client : ClientLog} (hc : Holds ft s client)
    (hat : h.offset = client.1) {r : ShapePage}
    (hbelow : offsetAfter (r.nextOffset.getD h.offset) s.tail = false)
    (hpage : s.upTo (r.nextOffset.getD h.offset) = s.upTo h.offset ++ r.envelopes.map (·.env))
    (pkName : String) (live : Bool) :
    (positionedRead ft pkName live h r).1.Inv s ∧
      ∀ messages offset, (positionedRead ft pkName live h r).2 = some (messages,offset) →
        Holds ft s (offset,client.2.bind (applyMessages · messages)) := by
  have hrow : ∀ e ∈ r.envelopes.map (·.env), e.headers.operation ≠ "delete" → e.value.isSome := by
    intro e he
    exact ShapeStream.row_of_mem (hpage ▸ List.mem_append_right _ he)
  have hrows : s.rowsAt (r.nextOffset.getD h.offset) =
      foldStream (s.rowsAt h.offset) (r.envelopes.map (·.env)) := by
    rw [ShapeStream.rowsAt,hpage,foldStream_append]
    rfl
  obtain ⟨happly,hkeys⟩ := applyChanges_spec ft pkName (r.envelopes.map (·.env)) h.keys
    (s.rowsAt h.offset) hrow hh.keys
  have hview : client.2 = some fun k => (s.rowsAt h.offset k).map (encodeValue ft) := by
    rw [hc.view,hat]
    rfl
  unfold positionedRead
  by_cases hclosed : r.closed = true
  · rw [if_pos hclosed]
    exact ⟨hh,fun _ _ he => by cases he⟩
  rw [if_neg hclosed]
  by_cases hempty : (live && r.envelopes.isEmpty) = true
  · have hnil : r.envelopes.map (·.env) = [] := by
      rw [Bool.and_eq_true,List.isEmpty_iff] at hempty
      rw [hempty.2]
      rfl
    rw [hnil] at hrows
    rw [if_pos hempty]
    refine ⟨⟨hbelow,fun k => (hh.keys k).trans ?_⟩,fun messages offset he => ?_⟩
    · rw [hrows]
      rfl
    · obtain ⟨rfl,rfl⟩ := Prod.mk.inj (Option.some.inj he)
      refine ⟨hbelow,hview ▸ ?_⟩
      exact congrArg some (funext fun k => congrArg (Option.map _) (congrFun hrows.symm k))
  · rw [if_neg hempty]
    refine ⟨⟨hbelow,fun k => (hkeys k).trans ?_⟩,fun messages offset he => ?_⟩
    · rw [hrows]
    · obtain ⟨rfl,rfl⟩ := Prod.mk.inj (Option.some.inj he)
      refine ⟨hbelow,?_⟩
      have hmessages : applyMessages (fun k => (s.rowsAt h.offset k).map (encodeValue ft))
          ((applyChanges ft pkName h.keys (r.envelopes.map (·.env))).1 ++
            if r.upToDate then [.upToDate] else []) =
          some (clientView ft (s.upTo (r.nextOffset.getD h.offset))) := by
        have hsame : clientView ft (s.upTo (r.nextOffset.getD h.offset)) = fun k =>
            (foldStream (s.rowsAt h.offset) (r.envelopes.map (·.env)) k).map (encodeValue ft) :=
          funext fun k => congrArg (Option.map _) (congrFun hrows k)
        rw [hsame]
        split_ifs
        · exact applyMessages_upToDate happly
        · rwa [List.append_nil]
      rw [hview]
      exact hmessages

lemma ShapeStream.Reads.next_below {o at_ : String} {r : ShapePage} (hr : s.Reads at_ r)
    (ho : offsetAfter o s.tail = false) : offsetAfter (r.nextOffset.getD o) s.tail = false := by
  have hinside := hr.inside
  cases hn : r.nextOffset with
  | none => exact ho
  | some n =>
    rw [hn] at hinside
    exact hinside

/-- What a read from a later offset gives, when there is nothing between it and the handle's. -/
lemma ShapeStream.Reads.page {o at_ : String} {r : ShapePage} (hr : s.Reads at_ r)
    (hsame : s.upTo at_ = s.upTo o) :
    s.upTo (r.nextOffset.getD o) = s.upTo o ++ r.envelopes.map (·.env) := by
  have henvs : r.envelopes.map (·.env) = (s.items.filter fun i =>
      offsetAfter i.1 at_ && !offsetAfter i.1 (r.nextOffset.getD at_)).map (·.2) := by
    rw [hr.envelopes,List.map_map]
    rfl
  have hsplit := s.upTo_split (o := at_) (n := r.nextOffset.getD at_) fun i _ hi => by
    have hle := hr.forward
    rw [offsetAfter_eq_false] at hi hle ⊢
    exact hi.trans hle
  rw [← henvs,hsame] at hsplit
  cases hn : r.nextOffset with
  | some n =>
    rw [hn] at hsplit
    exact hsplit
  | none =>
    rw [hn,Option.getD_none] at henvs
    have hnil : r.envelopes.map (·.env) = [] := by
      rw [henvs,List.map_eq_nil_iff,List.filter_eq_nil_iff]
      simp
    rw [hnil,List.append_nil]
    rfl


end

/-- A stream grows behind its tail only. -/
structure ShapeStream.Grows (s t : ShapeStream) : Prop where
  items : ∀ i ∈ t.items, i ∈ s.items ∨ offsetAfter i.1 s.tail = true
  below : ∀ o, offsetAfter o s.tail = false → offsetAfter o t.tail = false
  upTo : ∀ o, offsetAfter o s.tail = false → t.upTo o = s.upTo o

lemma ShapeStream.grows_append (s : ShapeStream) (e : Envelope) (stamp tail : String)
    (hstamp : offsetAfter stamp s.tail = true) (htail : offsetAfter stamp tail = false)
    (hrow : e.headers.operation ≠ "delete" → e.value.isSome) :
    s.Grows (s.append e stamp tail hstamp htail hrow) := by
  refine ⟨fun i hi => ?_,fun o ho => ?_,fun o ho => upTo_append e stamp tail hstamp htail hrow ho⟩
  · rcases List.mem_append.mp hi with hi | hi
    · exact .inl hi
    · exact .inr (List.mem_singleton.mp hi ▸ hstamp)
  · rw [offsetAfter_eq_false] at ho htail
    exact (offsetAfter_eq_false _ _).mpr (ho.trans (((offsetAfter_iff _ _).mp hstamp).le.trans htail))

section
variable {ft : FloatText} {s t : ShapeStream}

lemma Holds.grows {client : ClientLog} (h : Holds ft s client) (hg : s.Grows t) : Holds ft t client :=
  ⟨hg.below _ h.below,by rw [h.view,hg.upTo _ h.below]⟩

lemma HandleState.Inv.grows {h : HandleState} (hh : h.Inv s) (hg : s.Grows t) : h.Inv t := by
  refine ⟨hg.below _ hh.below,fun k => ?_⟩
  rw [ShapeStream.rowsAt,hg.upTo _ hh.below]
  exact hh.keys k

lemma ShapeFold.Inv.grows {f : ShapeFold} (h : f.Inv s)
    (htarget : ∀ o ∈ f.until_, offsetAfter o s.tail = false) (hg : s.Grows t) : f.Inv t := by
  have hcovers : f.covers t = f.covers s := by
    refine hg.upTo _ ?_
    split_ifs
    · cases hu : f.until_ with
      | none => exact h.below
      | some o => exact htarget o hu
    · exact h.below
  refine ⟨hg.below _ h.below,hcovers ▸ h.shows,fun hdone o ho i hi hle => ?_⟩
  rcases hg.items i hi with hold | hnew
  · exact h.before hdone o ho i hold hle
  · -- what is behind the tail is behind the fold's offset
    have hbelow := h.below
    rw [offsetAfter_eq_false] at hle hbelow
    exact absurd (hle.trans hbelow) (not_le.mpr ((offsetAfter_iff _ _).mp hnew))

end

namespace ElectricAdapter

/-- What a read from `at_` finds, and the page before it: there is nothing after the client's offset yet. -/
structure Waits (s : ShapeStream) (o at_ : String) (last : ShapePage) : Prop where
  below : offsetAfter at_ s.tail = false
  same : s.upTo at_ = s.upTo o
  empty : last.envelopes = []
  lastBelow : offsetAfter (last.nextOffset.getD o) s.tail = false
  lastSame : s.upTo (last.nextOffset.getD o) = s.upTo o

lemma waits_begin {s : ShapeStream} {o : String} (ho : offsetAfter o s.tail = false) :
    Waits s o o ⟨[],none,false,false⟩ := ⟨ho,rfl,rfl,ho,rfl⟩

lemma Waits.grows {s t : ShapeStream} {o at_ : String} {last : ShapePage} (h : Waits s o at_ last)
    (ho : offsetAfter o s.tail = false) (hg : s.Grows t) : Waits t o at_ last := by
  refine ⟨hg.below _ h.below,?_,h.empty,hg.below _ h.lastBelow,?_⟩
  · rw [hg.upTo _ h.below,hg.upTo _ ho,h.same]
  · rw [hg.upTo _ h.lastBelow,hg.upTo _ ho,h.lastSame]

/-- What holds in each phase of the handle. -/
def PhaseInv (ft : FloatText) (s : ShapeStream) (handle : Option HandleState) : AdapterPhase → Prop
  | .free => True
  | .materializing f => f.Inv s ∧ f.until_ = none ∧ f.keysOnly = false
  | .rebuilding client _ f => Holds ft s client ∧ f.Inv s ∧ f.until_ = some client.1
  | .reading client _ at_ last => Holds ft s client ∧ (∀ h ∈ handle, h.offset = client.1) ∧
    Waits s client.1 at_ last

structure Inv (ft : FloatText) (s : ElectricAdapter) : Prop where
  handle : ∀ h ∈ s.handle, h.Inv s.stream
  held : ∀ client ∈ s.held, Holds ft s.stream client
  snapshot : ∀ n messages, s.snapshot = some (n,messages) → offsetAfter n s.stream.tail = false ∧
    ∀ k, (insertedKeys messages).count k = if s.stream.rowsAt n k = none then 0 else 1
  phase : PhaseInv ft s.stream s.handle s.phase

lemma inv_new (ft : FloatText) (stream : ShapeStream) : (new stream).Inv ft :=
  ⟨by simp [new],by simp [new],by simp [new],trivial⟩

section
variable {ft : FloatText} {pkName : String} {s : ElectricAdapter}

/-- Storage takes a step: whatever the handle and its client have stays. -/
lemma Inv.grows (h : s.Inv ft) {t : ShapeStream} (hg : s.stream.Grows t) :
    ElectricAdapter.Inv ft { s with stream := t } := by
  refine ⟨fun x hx => (h.handle x hx).grows hg,fun client hc => (h.held client hc).grows hg,
    fun n messages hn => ?_,?_⟩
  · obtain ⟨hbelow,hcount⟩ := h.snapshot n messages hn
    refine ⟨hg.below _ hbelow,fun k => ?_⟩
    rw [ShapeStream.rowsAt,hg.upTo _ hbelow]
    exact hcount k
  · have hphase := h.phase
    show PhaseInv ft t s.handle s.phase
    cases hp : s.phase with
    | free => trivial
    | materializing f =>
      rw [hp] at hphase
      obtain ⟨hf,hu,hk⟩ := hphase
      exact ⟨hf.grows (by simp [hu]) hg,hu,hk⟩
    | rebuilding client live f =>
      rw [hp] at hphase
      obtain ⟨hc,hf,hu⟩ := hphase
      refine ⟨hc.grows hg,hf.grows (fun o ho => ?_) hg,hu⟩
      rw [hu] at ho
      exact Option.some.inj ho ▸ hc.below
    | reading client live at_ last =>
      rw [hp] at hphase
      obtain ⟨hc,hat,hw⟩ := hphase
      exact ⟨hc.grows hg,hat,hw.grows hc.below hg⟩

/-- A snapshot whose fold lists no row twice. -/
lemma Inv.answerSnapshot (h : s.Inv ft) {f : ShapeFold} (hp : s.phase = .materializing f)
    (hdone : f.done = true) (hallowed : s.Allowed (.snapshot f.offset)) :
    ElectricAdapter.Inv ft { s with
      handle := some ⟨(f.orderedRows.map Prod.fst).toFinset,f.offset⟩
      phase := .free
      snapshot := some (f.offset,snapshotMessages ft f.orderedRows)
      held := [(f.offset,applyMessages (fun _ => none) (snapshotMessages ft f.orderedRows))] } := by
  have hphase := h.phase
  rw [hp] at hphase
  obtain ⟨hf,hu,hk⟩ := hphase
  have hshows : f.Shows (s.stream.upTo f.offset) := by
    have hcovers := hf.shows
    rwa [ShapeFold.covers,if_pos hdone,hu,Option.getD_none] at hcovers
  refine ⟨fun x hx => ?_,fun client hc => ?_,fun n messages hn => ?_,trivial⟩
  · obtain rfl := Option.some.inj hx
    refine ⟨hf.below,fun k => ?_⟩
    rw [List.mem_toFinset,← List.count_pos_iff,hshows.count hallowed,← ShapeStream.rowsAt]
    split_ifs with hnone <;> simp [hnone]
  · obtain rfl := List.mem_singleton.mp hc
    exact ⟨hf.below,hshows.snapshot ft hk hallowed⟩
  · obtain ⟨rfl,rfl⟩ := Prod.mk.inj (Option.some.inj hn)
    refine ⟨hf.below,fun k => ?_⟩
    rw [insertedKeys_snapshot,hshows.count hallowed]
    rfl

/-- The keys as of the offset that the client is back at. -/
lemma Inv.rebuilt (h : s.Inv ft) {client : ClientLog} {live : Bool} {f : ShapeFold}
    (hp : s.phase = .rebuilding client live f) (hdone : f.done = true) :
    ElectricAdapter.Inv ft { s with
      handle := some ⟨f.rows.keys.toFinset,client.1⟩
      phase := .reading client live client.1 ⟨[],none,false,false⟩ } := by
  have hphase := h.phase
  rw [hp] at hphase
  obtain ⟨hc,hf,hu⟩ := hphase
  have hshows : f.Shows (s.stream.upTo client.1) := by
    have hcovers := hf.shows
    rwa [ShapeFold.covers,if_pos hdone,hu,Option.getD_some] at hcovers
  refine ⟨fun x hx => ?_,h.held,h.snapshot,hc,fun x hx => ?_,waits_begin hc.below⟩
  · obtain rfl := Option.some.inj hx
    refine ⟨hc.below,fun k => ?_⟩
    rw [List.mem_toFinset,AssocMap.mem_keys,hshows.rows,Option.isSome_map,ShapeStream.rowsAt,
      Option.isSome_iff_ne_none]
  · exact Option.some.inj hx ▸ rfl

/-- A request is answered with a page from its offset on. -/
lemma Inv.answered (h : s.Inv ft) {x : HandleState} {client : ClientLog} (hx : s.handle = some x)
    (hc : Holds ft s.stream client) (hat : x.offset = client.1) {r : ShapePage}
    (hbelow : offsetAfter (r.nextOffset.getD client.1) s.stream.tail = false)
    (hpage : s.stream.upTo (r.nextOffset.getD client.1) =
      s.stream.upTo client.1 ++ r.envelopes.map (·.env)) (live : Bool) :
    ElectricAdapter.Inv ft { s with
      handle := some (positionedRead ft pkName live x r).1
      phase := .free
      held := s.answer client (positionedRead ft pkName live x r).2 } := by
  rw [← hat] at hbelow hpage
  obtain ⟨hhandle,hheld⟩ :=
    positionedRead_spec (h.handle x hx) hc hat hbelow hpage pkName live
  refine ⟨fun y hy => Option.some.inj hy ▸ hhandle,fun c hcm => ?_,h.snapshot,trivial⟩
  cases hout : (positionedRead ft pkName live x r).2 with
  | none =>
    rw [hout] at hcm
    exact h.held c hcm
  | some out =>
    rw [hout] at hcm
    rcases List.mem_append.mp hcm with hold | hnew
    · exact h.held c hold
    · exact List.mem_singleton.mp hnew ▸ hheld out.1 out.2 hout

lemma inv_step {a : Act} {s' : ElectricAdapter} (h : s.Inv ft) (hallowed : s.Allowed a)
    (hst : Step ft pkName s a s') : s'.Inv ft := by
  have hphase := h.phase
  cases hst with
  | append e stamp tail hopen hstamp htail hrow =>
    exact h.grows (s.stream.grows_append e stamp tail hstamp htail hrow)
  | close => exact h.grows ⟨fun i hi => .inl hi,fun _ ho => ho,fun _ _ => rfl⟩
  | askSnapshot =>
    refine ⟨h.handle,h.held,h.snapshot,⟨?_,?_,?_⟩,rfl,rfl⟩
    · simp [ShapeFold.toTail,offsetAfter]
    · show ShapeFold.toTail.Shows (s.stream.upTo "-1")
      exact s.stream.upTo_begin.symm ▸ ShapeFold.shows_toTail
    · simp [ShapeFold.toTail]
  | readSnapshot hp hdone hr =>
    rw [hp] at hphase
    obtain ⟨hf,hu,hk⟩ := hphase
    obtain ⟨hu',hk'⟩ := ShapeFold.applyPage_target _ _
    exact ⟨h.handle,h.held,h.snapshot,hf.applyPage hdone hr,hu'.trans hu,hk'.trans hk⟩
  | answerSnapshot hp hdone => exact h.answerSnapshot hp hdone hallowed
  | ask hfree hh hclient hat live =>
    have hc := h.held _ hclient
    refine ⟨h.handle,h.held,h.snapshot,hc,fun x hx => ?_,waits_begin hc.below⟩
    obtain rfl := Option.some.inj (hh.symm.trans hx)
    exact hat
  | askOlder hfree hh hclient hat live =>
    have hc := h.held _ hclient
    refine ⟨h.handle,h.held,h.snapshot,hc,⟨?_,?_,fun _ t ht i hi hle => ?_⟩,rfl⟩
    · simp [ShapeFold.upTo,offsetAfter]
    · show ShapeFold.Shows _ (s.stream.upTo "-1")
      exact s.stream.upTo_begin.symm ▸ ShapeFold.shows_upTo _
    · -- there is nothing up to the beginning
      have hnil := List.map_eq_nil_iff.mp s.stream.upTo_begin
      exact absurd (List.mem_filter.mpr ⟨hi,by simpa [ShapeFold.upTo] using hle⟩) (hnil ▸ List.not_mem_nil)
  | readKeys hp hdone hr =>
    rw [hp] at hphase
    obtain ⟨hc,hf,hu⟩ := hphase
    exact ⟨h.handle,h.held,h.snapshot,hc,hf.applyPage hdone hr,
      (ShapeFold.applyPage_target _ _).1.trans hu⟩
  | rebuilt hp hdone => exact h.rebuilt hp hdone
  | poll hp hr hopen hempty =>
    rw [hp] at hphase
    obtain ⟨hc,hat,hw⟩ := hphase
    have hpage := hr.page hw.same
    have hnext := hr.page rfl
    rw [hempty,List.map_nil,List.append_nil] at hpage hnext
    exact ⟨h.handle,h.held,h.snapshot,hc,hat,hr.inside,hnext.trans hw.same,hempty,
      hr.next_below hc.below,hpage⟩
  | read hp hh hr hdata =>
    rw [hp] at hphase
    obtain ⟨hc,hat,hw⟩ := hphase
    exact h.answered hh hc (hat _ hh) (hr.next_below hc.below) (hr.page hw.same) _
  | expire hp hh =>
    rw [hp] at hphase
    obtain ⟨hc,hat,hw⟩ := hphase
    refine h.answered hh hc (hat _ hh) hw.lastBelow ?_ true
    rw [hw.lastSame,hw.empty,List.map_nil,List.append_nil]
  | drop => exact ⟨h.handle,h.held,h.snapshot,trivial⟩

lemma inv_run {t : ElectricAdapter} (h : s.Inv ft) (hrun : GuardedSteps ft pkName s t) : t.Inv ft := by
  induction hrun with
  | refl => exact h
  | tail _ hst ih =>
    obtain ⟨a,hallowed,hst⟩ := hst
    exact inv_step ih hallowed hst

end

/-- What a client may rely on: the snapshot lists every row once and nothing else, every message that it
got applied, and what it holds is the stream up to the offset that it was answered with. -/
def ValidLog (ft : FloatText) (s : ElectricAdapter) : Prop :=
  (∀ n messages, s.snapshot = some (n,messages) →
    ∀ k, (insertedKeys messages).count k = if s.stream.rowsAt n k = none then 0 else 1) ∧
  ∀ client ∈ s.held, client.2 = some (clientView ft (s.stream.upTo client.1))

end ElectricAdapter

def sampleStamped (operation : String) (value : Option Json) : Envelope :=
  ⟨"issues","1",value,none,⟨operation,none,none,none,none⟩⟩

/-- A stream with one row. -/
def ShapeStream.sampleStored : ShapeStream where
  items := [("1",sampleStamped "upsert" (some (.object [("title",.string "a")])))]
  tail := "1"
  closed := false
  sorted := List.pairwise_singleton _ _
  below := by decide +kernel
  began := by simp
  rows := by simp [sampleStamped]

/-- The row is deleted, and stored again. -/
def ShapeStream.sampleRevived : ShapeStream :=
  (sampleStored.append (sampleStamped "delete" none) "2" "2" (by decide +kernel) (by decide +kernel)
    (by simp [sampleStamped])).append
    (sampleStamped "upsert" (some (.object [("title",.string "b")]))) "3" "3" (by decide +kernel)
    (by decide +kernel) (by simp [sampleStamped])

/-- A read of all that there is. -/
def ShapeStream.samplePage (s : ShapeStream) (o : String) : ShapePage where
  envelopes := (s.items.filter fun i => offsetAfter i.1 o && !offsetAfter i.1 s.tail).map fun i =>
    ⟨i.2,some i.1⟩
  nextOffset := some s.tail
  upToDate := true
  closed := false

lemma ShapeStream.reads_samplePage (s : ShapeStream) {o : String} (ho : offsetAfter o s.tail = false) :
    s.Reads o (s.samplePage o) :=
  ⟨rfl,ho,by simp [samplePage,offsetAfter_eq_false],fun _ => rfl,fun he => he.symm,by simp [samplePage]⟩

namespace ElectricAdapter

/-- The whole stream is read for a snapshot. -/
def sampleMaterialized (stream : ShapeStream) : ElectricAdapter :=
  ⟨stream,none,.materializing (ShapeFold.toTail.applyPage (stream.samplePage "-1")),none,[]⟩

lemma guarded_sampleMaterialized (stream : ShapeStream) (ho : offsetAfter "-1" stream.tail = false) :
    GuardedSteps .positional "id" (new stream) (sampleMaterialized stream) :=
  .head ⟨.other,trivial,.askSnapshot _ rfl rfl⟩
    (.single ⟨.other,trivial,.readSnapshot _ rfl rfl (stream.reads_samplePage ho)⟩)

end ElectricAdapter

end ElectricCircuits
