import ElectricCircuits.Ingestor

/-! The buffer of one transaction between its `Begin` and its `Commit`, and the stream of stamped chunks
that it is appended as. -/
namespace ElectricCircuits

structure TxnBufferConfig where
  memoryBytes : ℕ
  appendBytes : ℕ

/-- The size of an envelope in memory and as JSON text. -/
structure EnvelopeSizes where
  memory : Envelope → ℕ
  serialized : Envelope → ℕ

/-- The transaction's changes in memory or, once they outgrew their cap, in the spill file. -/
structure TxnBuffer where
  xid : ℕ
  mem : List Envelope
  memBytes : ℕ
  spill : Option (List Envelope)
  sync : Option ℤ

namespace TxnBuffer

def new (xid : ℕ) : TxnBuffer := ⟨xid,[],0,none,none⟩

def beginSpill (t : TxnBuffer) : TxnBuffer := { t with mem := [], memBytes := 0, spill := some t.mem }

def push (sizes : EnvelopeSizes) (cfg : TxnBufferConfig) (t : TxnBuffer) (env : Envelope) : TxnBuffer :=
  match t.spill with
  | some lines => { t with spill := some (lines ++ [env]) }
  | none =>
    let t := { t with mem := t.mem ++ [env], memBytes := t.memBytes+sizes.memory env }
    if 0 < cfg.memoryBytes ∧ cfg.memoryBytes ≤ t.memBytes then t.beginSpill else t

def setSync (t : TxnBuffer) (n : ℤ) : TxnBuffer := { t with sync := some n }

/-- What the drain reads: the spill file when there is one. -/
def contents (t : TxnBuffer) : List Envelope := t.spill.getD t.mem

section
variable {sizes : EnvelopeSizes} {cfg : TxnBufferConfig}

@[simp] lemma contents_setSync (t : TxnBuffer) (n : ℤ) : (t.setSync n).contents = t.contents := rfl

@[simp] lemma contents_beginSpill (t : TxnBuffer) : t.beginSpill.contents = t.mem := rfl

@[simp] lemma contents_push (t : TxnBuffer) (env : Envelope) :
    (t.push sizes cfg env).contents = t.contents ++ [env] := by
  rw [push]
  cases hs : t.spill with
  | some lines => simp [contents,hs]
  | none =>
    have hmem : t.contents = t.mem := by simp [contents,hs]
    dsimp only
    split_ifs with hcap
    · rw [contents_beginSpill,hmem]
    · rw [hmem]
      rfl

@[simp] lemma xid_push (t : TxnBuffer) (env : Envelope) : (t.push sizes cfg env).xid = t.xid := by
  rw [push]
  split
  · rfl
  · dsimp only
    split_ifs <;> rfl

end
end TxnBuffer

/-- What every envelope of a commit is stamped with. -/
structure TxnDrain.Stamp where
  lsn : String
  txid : String

/-- The bytes of the stamps in an envelope's text, at most. -/
def stampBytes : ℕ := 96

/-- The stream of a buffer's envelopes in chunks. `pending` is the envelope that did not fit the last
chunk, with its size. -/
structure TxnDrain where
  raw : List Envelope
  stamp : TxnDrain.Stamp
  seq : ℕ
  budget : ℕ
  pending : Option (Envelope × ℕ)
  exhausted : Bool

def TxnBuffer.drain (cfg : TxnBufferConfig) (t : TxnBuffer) (stamp : TxnDrain.Stamp) : TxnDrain :=
  ⟨t.contents,stamp,0,cfg.appendBytes,none,false⟩

/-- The transaction-end marker on the last envelope. -/
def markLast : List Envelope → List Envelope
  | [] => []
  | [env] => [{ env with headers := { env.headers with last := some true } }]
  | env::envs => env::markLast envs

@[simp] lemma markLast_nil : markLast [] = [] := rfl

lemma markLast_cons (env : Envelope) {envs : List Envelope} (h : envs ≠ []) :
    markLast (env::envs) = env::markLast envs := by
  cases envs with
  | nil => exact absurd rfl h
  | cons => rfl

lemma markLast_append (xs : List Envelope) {ys : List Envelope} (h : ys ≠ []) :
    markLast (xs ++ ys) = xs ++ markLast ys := by
  induction xs with
  | nil => rfl
  | cons x xs ih => rw [List.cons_append,markLast_cons x (by simp [h]),ih,List.cons_append]

namespace TxnDrain

/-- The stamps of the envelope at `seq`. -/
def stamped (d : TxnDrain) (seq : ℕ) (env : Envelope) : Envelope :=
  { env with
    headers := { env.headers with lsn := some d.stamp.lsn, txid := some d.stamp.txid, seq := some seq } }

/-- The loop of a chunk over what is left of the buffer: it ends at the envelope that would exceed the
budget, or where the buffer does. A first envelope is taken whatever its size. -/
def fill (sizes : EnvelopeSizes) (d : TxnDrain) (chunk : List Envelope) (body : ℕ) :
    List Envelope → List Envelope × TxnDrain
  | [] => (chunk,{ d with raw := [], exhausted := true })
  | e::raw =>
    let env := d.stamped d.seq e
    let len := sizes.serialized e
    let d := { d with seq := d.seq+1 }
    let cost := len+stampBytes+(!chunk.isEmpty).toNat
    if !chunk.isEmpty ∧ d.budget < body+cost then (chunk,{ d with raw, pending := some (env,len) })
    else fill sizes d (chunk ++ [env]) (body+cost) raw

/-- The next chunk, if the transaction is not drained. The pending envelope comes first, and as the
first of its chunk it is taken. -/
def nextChunk (sizes : EnvelopeSizes) (d : TxnDrain) : Option (List Envelope) × TxnDrain :=
  let (chunk,d) :=
    match d.pending with
    | some (env,len) => fill sizes { d with pending := none } [env] (2+(len+stampBytes)) d.raw
    | none => fill sizes d [] 2 d.raw
  let chunk := if d.exhausted then markLast chunk else chunk
  (if chunk.isEmpty then none else some chunk,d)

/-- What the drain has still to read, stamped. -/
def unread (d : TxnDrain) : List Envelope :=
  (d.pending.map Prod.fst).toList ++ d.raw.mapIdx fun k => d.stamped (d.seq+k)

/-- What the drain has still to hand out. -/
def rest (d : TxnDrain) : List Envelope := markLast d.unread

/-- The buffer ran out only when nothing is left. -/
def Sound (d : TxnDrain) : Prop := d.exhausted = true → d.unread = []

variable {sizes : EnvelopeSizes}

lemma markLast_eq_nil {envs : List Envelope} : markLast envs = [] ↔ envs = [] := by
  cases envs with
  | nil => simp
  | cons e envs => cases envs <;> simp [markLast]

lemma unread_pending (d : TxnDrain) (e : Envelope) (raw : List Envelope) (len : ℕ) :
    unread { d with seq := d.seq+1, raw, pending := some (d.stamped d.seq e,len) } =
      (e::raw).mapIdx fun k => d.stamped (d.seq+k) := by
  rw [unread,List.mapIdx_cons]
  simp only [Option.map_some,Option.toList_some,List.singleton_append,List.cons.injEq]
  refine ⟨rfl,congrArg (List.mapIdx · raw) ?_⟩
  funext k
  rw [Nat.add_right_comm]
  rfl

variable (sizes) in
/-- The loop hands on all that it read, in order, and knows when the buffer ran out. -/
lemma fill_spec {d : TxnDrain} (hp : d.pending = none) (chunk : List Envelope) (body : ℕ)
    (raw : List Envelope) :
    let r := d.fill sizes chunk body raw
    r.1 ++ r.2.unread = chunk ++ raw.mapIdx (fun k => d.stamped (d.seq+k)) ∧
    (r.2.exhausted = true ∧ r.2.unread = [] ∨ r.2.exhausted = d.exhausted ∧ r.2.unread ≠ [] ∧ raw ≠ []) ∧
    (r.1 = [] → chunk = [] ∧ raw = []) := by
  induction raw generalizing d chunk body with
  | nil =>
    have hnil : unread { d with raw := [], exhausted := true } = [] := by simp [unread,hp]
    exact ⟨by rw [fill,hnil]; rfl,.inl ⟨rfl,hnil⟩,fun h => ⟨h,rfl⟩⟩
  | cons e raw ih =>
    rw [fill]
    dsimp only
    split_ifs with hfull
    · rw [unread_pending]
      refine ⟨rfl,.inr ⟨rfl,by simp,by simp⟩,fun h => ?_⟩
      obtain rfl : chunk = [] := h
      simp at hfull
    · obtain ⟨hall,hend,hne⟩ := ih (d := { d with seq := d.seq+1 }) hp (chunk ++ [d.stamped d.seq e])
        (body+(sizes.serialized e+stampBytes+(!chunk.isEmpty).toNat))
      refine ⟨?_,?_,fun h => absurd (hne h).1 (by simp)⟩
      · rw [hall,List.append_assoc,List.mapIdx_cons,List.singleton_append]
        congr 3
        funext k
        rw [Nat.add_right_comm]
        rfl
      · exact hend.imp_right fun ⟨hx,hu,_⟩ => ⟨hx,hu,by simp⟩

/-- A chunk taken off the front, marked if the buffer ran out. -/
lemma handOut_spec {d d' : TxnDrain} {chunk : List Envelope} (hall : chunk ++ d'.unread = d.unread)
    (hend : d'.exhausted = true ∧ d'.unread = [] ∨ d'.exhausted = false ∧ d'.unread ≠ [])
    (hne : chunk = [] → d.unread = []) :
    let out := if d'.exhausted then markLast chunk else chunk
    d'.Sound ∧ (out = [] ∧ d.rest = [] ∨ out ≠ [] ∧ d.rest = out ++ d'.rest) := by
  rcases hend with ⟨hx,hu⟩ | ⟨hx,hu⟩
  · have hrest : d.rest = markLast chunk := by rw [rest,← hall,hu,List.append_nil]
    have hrest' : d'.rest = [] := by rw [rest,hu,markLast_nil]
    simp only [hx,if_true,markLast_eq_nil]
    refine ⟨fun _ => hu,?_⟩
    by_cases hc : chunk = []
    · exact .inl ⟨hc,by rw [hrest,hc,markLast_nil]⟩
    · exact .inr ⟨mt markLast_eq_nil.mp hc,by rw [hrest,hrest',List.append_nil]⟩
  · simp only [hx,Bool.false_eq_true,if_false]
    refine ⟨fun h => absurd (hx.symm.trans h) (by decide),?_⟩
    by_cases hc : chunk = []
    · exact .inl ⟨hc,by rw [rest,hne hc,markLast_nil]⟩
    · exact .inr ⟨hc,by rw [rest,← hall,markLast_append _ hu,rest]⟩

variable (sizes) in
/-- A chunk is what the drain had next. It is there as long as something is left, and the marker is on
the last envelope of the last chunk. -/
theorem nextChunk_spec {d : TxnDrain} (hd : d.Sound) :
    (d.nextChunk sizes).2.Sound ∧
    ((d.nextChunk sizes).1 = none ∧ d.rest = [] ∨
      ∃ chunk, (d.nextChunk sizes).1 = some chunk ∧ chunk ≠ [] ∧
        d.rest = chunk ++ (d.nextChunk sizes).2.rest) := by
  obtain ⟨chunk,d',hnext,hspec⟩ : ∃ chunk d', d.nextChunk sizes =
      (let out := if d'.exhausted then markLast chunk else chunk
       (if out.isEmpty then none else some out,d')) ∧
      chunk ++ d'.unread = d.unread ∧
      (d'.exhausted = true ∧ d'.unread = [] ∨ d'.exhausted = false ∧ d'.unread ≠ []) ∧
      (chunk = [] → d.unread = []) := by
    cases hp : d.pending with
    | none =>
      obtain ⟨hall,hend,hne⟩ := fill_spec sizes hp [] 2 d.raw
      have hunread : d.unread = d.raw.mapIdx fun k => d.stamped (d.seq+k) := by simp [unread,hp]
      refine ⟨_,_,by rw [nextChunk,hp],hall.trans hunread.symm,?_,fun h => ?_⟩
      · refine hend.imp_right fun ⟨hx,hu,hraw⟩ => ⟨?_,hu⟩
        rw [hx]
        by_contra hexh
        have hnil := hd (by simpa using hexh)
        rw [hunread] at hnil
        exact hraw (by simpa using hnil)
      · simp [hunread,(hne h).2]
    | some p =>
      obtain ⟨env,len⟩ := p
      obtain ⟨hall,hend,hne⟩ := fill_spec sizes (d := { d with pending := none }) rfl [env]
        (2+(len+stampBytes)) d.raw
      have hunread : d.unread = env::d.raw.mapIdx fun k => d.stamped (d.seq+k) := by simp [unread,hp]
      refine ⟨_,_,by rw [nextChunk,hp],hall.trans hunread.symm,?_,fun h => ?_⟩
      · refine hend.imp_right fun ⟨hx,hu,_⟩ => ⟨?_,hu⟩
        rw [hx]
        by_contra hexh
        have hnil := hd (by simpa using hexh)
        simp [hunread] at hnil
      · exact absurd (hne h).1 (by simp)
  obtain ⟨hsound,hout⟩ := handOut_spec hspec.1 hspec.2.1 hspec.2.2
  rw [hnext]
  refine ⟨hsound,?_⟩
  rcases hout with ⟨hout,hrest⟩ | ⟨hout,hrest⟩
  · exact .inl ⟨by simp [hout],hrest⟩
  · exact .inr ⟨_,by simp [hout],hout,hrest⟩

lemma sound_drain (cfg : TxnBufferConfig) (t : TxnBuffer) (stamp : TxnDrain.Stamp) :
    (t.drain cfg stamp).Sound := fun h => absurd h (by simp [TxnBuffer.drain])

/-- The stamps that the whole stream puts on one list of envelopes from a place on. -/
lemma markLast_mapIdx (c : Commit) {envs : List Envelope} {k : ℕ}
    (hlast : ∀ e ∈ envs, e.headers.last = none) (hsize : k+envs.length = c.size) {d : TxnDrain}
    (hlsn : d.stamp.lsn = c.lsn) (htxid : d.stamp.txid = c.txid) :
    markLast (envs.mapIdx fun i => d.stamped (k+i)) = envs.mapIdx fun i => c.stamp (k+i) := by
  induction envs generalizing k with
  | nil => rfl
  | cons e envs ih =>
    have htail : ∀ f : ℕ → Envelope → Envelope, (fun i => f (k+(i+1))) = fun i => f (k+1+i) := by
      intro f
      funext i
      rw [Nat.add_assoc,Nat.add_comm 1 i]
    have hnone : e.headers.last = none := hlast e (.head _)
    rw [List.length_cons] at hsize
    rw [List.mapIdx_cons,List.mapIdx_cons,htail d.stamped,htail c.stamp]
    by_cases henvs : envs = []
    · subst henvs
      have hend : k+0+1 = c.size := by simpa using hsize
      simp only [List.mapIdx_nil,markLast,stamped,Commit.stamp,hlsn,htxid,if_pos hend]
    · have hnot : ¬k+0+1 = c.size := by
        have hpos := List.length_pos_iff.mpr henvs
        omega
      have hhead : d.stamped (k+0) e = c.stamp (k+0) e := by
        simp only [stamped,Commit.stamp,hlsn,htxid,if_neg hnot,hnone]
      rw [markLast_cons _ (by simpa using henvs),hhead,
        ih (fun e he => hlast e (.tail _ he)) (by omega)]

/-- A commit is appended as the envelopes of its changes, stamped in order. -/
theorem rest_drain (cfg : TxnBufferConfig) (t : TxnBuffer) (stamp : TxnDrain.Stamp)
    (hlast : ∀ e ∈ t.contents, e.headers.last = none) :
    (t.drain cfg stamp).rest = (Commit.mk stamp.txid stamp.lsn t.contents).envelopes := by
  have h := markLast_mapIdx ⟨stamp.txid,stamp.lsn,t.contents⟩ (k := 0) hlast (Nat.zero_add _)
    (d := t.drain cfg stamp) rfl rfl
  simpa [rest,unread,TxnBuffer.drain,Commit.envelopes] using h

end TxnDrain
end ElectricCircuits
