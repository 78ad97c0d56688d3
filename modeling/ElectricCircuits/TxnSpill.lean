import ElectricCircuits.JsonText
import ElectricCircuits.TxnBuffer
import Mathlib.Algebra.Order.BigOperators.Group.List

/-! The transaction buffer down to the text of its spill file: where the buffer went over its memory cap
is not to be seen in the chunks, and a chunk keeps to the budget of one append. -/
namespace ElectricCircuits

/-- The headers as JSON; what is not there is left out. -/
def EnvelopeHeaders.toJson (h : EnvelopeHeaders) : Json :=
  .object (("operation",.string h.operation)::((h.txid.map fun s => ("txid",.string s)).toList ++
    (h.lsn.map fun s => ("lsn",.string s)).toList ++
    (h.seq.map fun (n : ℕ) => ("seq",Json.int n)).toList ++
    (h.last.map fun b => ("last",.bool b)).toList))

def Envelope.toJson (e : Envelope) : Json :=
  .object (("type",.string e.type_)::("key",.string e.key)::
    ((e.value.map fun v => ("value",v)).toList ++ (e.old.map fun v => ("old",v)).toList ++
      [("headers",e.headers.toJson)]))

/-- An envelope as one line of the spill file. -/
def Envelope.text (ft : FloatText) (e : Envelope) : List Char := e.toJson.chars ft

/-- The body of the append of a chunk. -/
def bodyText (ft : FloatText) (chunk : List Envelope) : List Char :=
  (Json.array (chunk.map Envelope.toJson)).chars ft

/-- The bytes of a text. -/
def utf8Len (cs : List Char) : ℕ := (cs.map Char.utf8Size).sum

@[simp] lemma utf8Len_nil : utf8Len [] = 0 := rfl
@[simp] lemma utf8Len_cons (c : Char) (cs : List Char) : utf8Len (c::cs) = c.utf8Size+utf8Len cs := by
  simp [utf8Len]
@[simp] lemma utf8Len_append (cs ds : List Char) : utf8Len (cs ++ ds) = utf8Len cs+utf8Len ds := by
  simp [utf8Len]

namespace OnDisk

/-- The buffer of one transaction; `spill` is the text of its file, once there is one. -/
structure TxnBuffer where
  xid : ℕ
  cfg : TxnBufferConfig
  mem : List Envelope
  memBytes : ℕ
  spill : Option (List Char)
  count : ℕ
  bufferedBytes : ℕ
  rawBytes : ℕ
  sync : Option ℤ

namespace TxnBuffer

def new (xid : ℕ) (cfg : TxnBufferConfig) : TxnBuffer := ⟨xid,cfg,[],0,none,0,0,0,none⟩

def writeSpilled (t : TxnBuffer) (line : List Char) : TxnBuffer :=
  { t with spill := t.spill.map (· ++ (line ++ ['\n'])) }

/-- Cross the cap: everything buffered so far goes to the file. -/
def beginSpill (ft : FloatText) (t : TxnBuffer) : TxnBuffer :=
  t.mem.foldl (fun t env => t.writeSpilled (env.text ft)) { t with mem := [], memBytes := 0, spill := some [] }

/-- Buffer a change; `memory` is what it takes in memory, and a cap of zero is none. -/
def push (ft : FloatText) (memory : Envelope → ℕ) (t : TxnBuffer) (env : Envelope) (rawLen : ℕ) :
    TxnBuffer :=
  let bytes := memory env
  let t := { t with
    count := t.count+1
    bufferedBytes := t.bufferedBytes+bytes
    rawBytes := t.rawBytes+rawLen }
  if t.spill.isSome then t.writeSpilled (env.text ft)
  else
    let t := { t with memBytes := t.memBytes+bytes, mem := t.mem ++ [env] }
    if 0 < t.cfg.memoryBytes ∧ t.cfg.memoryBytes ≤ t.memBytes then t.beginSpill ft else t

end TxnBuffer

/-- The commit-time stream: what is left in memory, or what is left of the file. -/
structure TxnDrain where
  xid : ℕ
  mem : List Envelope
  reader : Option (List Char)
  stamp : ElectricCircuits.TxnDrain.Stamp
  seq : ℕ
  budget : ℕ
  pending : Option (Envelope × ℕ)
  exhausted : Bool

def TxnBuffer.drain (t : TxnBuffer) (stamp : ElectricCircuits.TxnDrain.Stamp) : TxnDrain :=
  ⟨t.xid,t.mem,t.spill,stamp,0,t.cfg.appendBytes,none,false⟩

inductive Raw where
  | line (cs : List Char)
  | env (e : Envelope)

namespace TxnDrain

/-- The next change in its stored form: a line of the file without its newline, or an envelope. -/
def nextRaw (d : TxnDrain) : Option Raw × TxnDrain :=
  match d.reader with
  | some r =>
    if r = [] then (none,d)
    else (some (.line (r.takeWhile (· ≠ '\n'))),{ d with reader := some (r.dropWhile (· ≠ '\n')).tail })
  | none =>
    match d.mem with
    | [] => (none,d)
    | env::mem => (some (.env env),{ d with mem })

variable (parse : List Char → Except String Envelope) (ft : FloatText)

/-- The stored form read back, with the size of its text. -/
def readRaw (xid : ℕ) : Raw → Except String (Envelope × ℕ)
  | .line cs =>
    match parse cs with
    | .ok env => .ok (env,utf8Len cs)
    | .error e => .error s!"parsing a buffered change of transaction {xid} back: {e}"
  | .env env => .ok (env,utf8Len (env.text ft))

/-- The next change, stamped. -/
def nextStamped (d : TxnDrain) : Except String (Option (Envelope × ℕ) × TxnDrain) :=
  match d.nextRaw with
  | (none,d) => .ok (none,d)
  | (some raw,d) =>
    match readRaw parse ft d.xid raw with
    | .error e => .error e
    | .ok (env,len) =>
      .ok (some ({ env with
        headers := { env.headers with
          lsn := some d.stamp.lsn
          txid := some d.stamp.txid
          seq := some d.seq } },len),{ d with seq := d.seq+1 })

/-- The change that the last chunk left over comes first. -/
def next (d : TxnDrain) : Except String (Option (Envelope × ℕ) × TxnDrain) :=
  match d.pending with
  | some p => .ok (some p,{ d with pending := none })
  | none => nextStamped parse ft d

/-- What is left to read, counted so that every reading takes some of it. -/
def left (d : TxnDrain) : ℕ :=
  (match d.reader with
    | some r => r.length
    | none => d.mem.length)+d.pending.isSome.toNat

lemma nextRaw_left {d d' : TxnDrain} {raw : Raw} (h : d.nextRaw = (some raw,d')) : d'.left < d.left := by
  rw [nextRaw] at h
  split at h
  · rename_i r hr
    cases r with
    | nil => cases h
    | cons c r =>
      rw [if_neg (List.cons_ne_nil c r)] at h
      obtain ⟨-,rfl⟩ := Prod.mk.inj h
      have hlen := List.length_dropWhile_le (· ≠ '\n') r
      simp only [left,hr,List.length_tail,List.length_cons,List.dropWhile_cons]
      split_ifs
      · omega
      · simp only [List.length_cons]
        omega
  · rename_i hr
    split at h
    · cases h
    · rename_i env mem hmem
      obtain ⟨-,rfl⟩ := Prod.mk.inj h
      simp only [left,hr,hmem,List.length_cons]
      omega

lemma next_left {d d' : TxnDrain} {p : Envelope × ℕ} (h : next parse ft d = .ok (some p,d')) :
    d'.left < d.left := by
  rw [next] at h
  split at h
  · rename_i hp
    obtain ⟨-,rfl⟩ := Prod.mk.inj (Except.ok.inj h)
    simp [left,hp]
  · rw [nextStamped] at h
    split at h
    · cases h
    · rename_i raw d'' hraw
      have hlt := nextRaw_left hraw
      split at h
      · cases h
      · obtain ⟨-,rfl⟩ := Prod.mk.inj (Except.ok.inj h)
        exact hlt

/-- The loop of a chunk: it ends at the change that would exceed the budget, or where the source does. -/
def fill (d : TxnDrain) (chunk : List Envelope) (body : ℕ) : Except String (List Envelope × TxnDrain) :=
  match _h : next parse ft d with
  | .error e => .error e
  | .ok (none,d') => .ok (chunk,{ d' with exhausted := true })
  | .ok (some (env,len),d') =>
    let cost := len+stampBytes+(!chunk.isEmpty).toNat
    if !chunk.isEmpty ∧ d'.budget < body+cost then .ok (chunk,{ d' with pending := some (env,len) })
    else fill d' (chunk ++ [env]) (body+cost)
termination_by d.left
decreasing_by exact next_left parse ft _h

def nextChunk (d : TxnDrain) : Except String (Option (List Envelope) × TxnDrain) :=
  match fill parse ft d [] 2 with
  | .error e => .error e
  | .ok (chunk,d) =>
    let chunk := if d.exhausted then markLast chunk else chunk
    .ok (if chunk.isEmpty then none else some chunk,d)

/-- The chunks that a drain hands out until it has none. -/
inductive Drains : TxnDrain → List (List Envelope) → Prop where
  | done {d d' : TxnDrain} (h : nextChunk parse ft d = .ok (none,d')) : Drains d []
  | more {d d' : TxnDrain} {chunk : List Envelope} {chunks : List (List Envelope)}
    (h : nextChunk parse ft d = .ok (some chunk,d')) (rest : Drains d' chunks) : Drains d (chunk::chunks)

end TxnDrain

variable {ft : FloatText} {memory : Envelope → ℕ}

/-- The text of a file of changes. -/
def fileOf (ft : FloatText) (envs : List Envelope) : List Char :=
  envs.flatMap fun e => e.text ft ++ ['\n']

namespace TxnBuffer

/-- The buffer holds these changes, in memory or in its file. -/
def Holds (ft : FloatText) (t : TxnBuffer) (envs : List Envelope) : Prop :=
  t.spill = none ∧ t.mem = envs ∨ t.spill = some (fileOf ft envs)

lemma foldl_writeSpilled {t : TxnBuffer} {file : List Char} (h : t.spill = some file)
    (envs : List Envelope) :
    envs.foldl (fun t env => t.writeSpilled (env.text ft)) t =
      { t with spill := some (file ++ fileOf ft envs) } := by
  induction envs generalizing t file with
  | nil => simp [fileOf,← h]
  | cons e envs ih =>
    have hspill : (t.writeSpilled (e.text ft)).spill = some (file ++ (e.text ft ++ ['\n'])) := by
      simp [writeSpilled,h]
    rw [List.foldl_cons,ih hspill]
    simp [writeSpilled,fileOf]

lemma beginSpill_eq (t : TxnBuffer) :
    t.beginSpill ft = { t with mem := [], memBytes := 0, spill := some (fileOf ft t.mem) } := by
  rw [beginSpill,foldl_writeSpilled rfl]
  rfl

lemma fileOf_append (envs : List Envelope) (e : Envelope) :
    fileOf ft (envs ++ [e]) = fileOf ft envs ++ (e.text ft ++ ['\n']) := by simp [fileOf]

/-- Whichever push crosses the cap, the change is behind those before it. -/
lemma Holds.push {t : TxnBuffer} {envs : List Envelope} (h : t.Holds ft envs) (env : Envelope)
    (rawLen : ℕ) : (t.push ft memory env rawLen).Holds ft (envs ++ [env]) ∧
      (t.push ft memory env rawLen).cfg = t.cfg ∧ (t.push ft memory env rawLen).xid = t.xid := by
  rcases h with ⟨hspill,hmem⟩ | hspill
  · simp only [TxnBuffer.push,hspill,Option.isSome_none,Bool.false_eq_true,if_false]
    split_ifs
    · rw [beginSpill_eq]
      exact ⟨.inr (by rw [hmem]),rfl,rfl⟩
    · exact ⟨.inl ⟨rfl,by rw [hmem]⟩,rfl,rfl⟩
  · simp only [TxnBuffer.push,hspill,Option.isSome_some,if_true]
    exact ⟨.inr (by simp [writeSpilled,fileOf_append]),rfl,rfl⟩

/-- The changes of a transaction, with the sizes of their messages. -/
def pushAll (ft : FloatText) (memory : Envelope → ℕ) (t : TxnBuffer) (envs : List (Envelope × ℕ)) :
    TxnBuffer := envs.foldl (fun t e => t.push ft memory e.1 e.2) t

lemma Holds.pushAll {t : TxnBuffer} {held : List Envelope} (h : t.Holds ft held)
    (envs : List (Envelope × ℕ)) : (t.pushAll ft memory envs).Holds ft (held ++ envs.map (·.1)) ∧
      (t.pushAll ft memory envs).cfg = t.cfg := by
  induction envs generalizing t held with
  | nil => exact ⟨by rwa [List.map_nil,List.append_nil],rfl⟩
  | cons e envs ih =>
    obtain ⟨hpush,hcfg,-⟩ := @Holds.push ft memory _ _ h e.1 e.2
    obtain ⟨hall,hcfg'⟩ := ih hpush
    rw [List.append_assoc] at hall
    exact ⟨hall,hcfg'.trans hcfg⟩

end TxnBuffer

namespace TxnDrain
variable {parse : List Char → Except String Envelope}

/-- The drain reads what the drain of the changes themselves does. -/
structure Refines (ft : FloatText) (s : TxnDrain) (d : ElectricCircuits.TxnDrain) : Prop where
  stamp : s.stamp = d.stamp
  seq : s.seq = d.seq
  budget : s.budget = d.budget
  pending : s.pending = d.pending
  exhausted : s.exhausted = d.exhausted
  source : s.reader = none ∧ s.mem = d.raw ∨ s.reader = some (fileOf ft d.raw)

/-- Changes are read back from their lines. -/
def Readable (parse : List Char → Except String Envelope) (ft : FloatText) (envs : List Envelope) : Prop :=
  ∀ e ∈ envs, parse (e.text ft) = .ok e ∧ '\n' ∉ e.text ft

variable {s : TxnDrain} {d : ElectricCircuits.TxnDrain}

lemma Refines.nextStamped_nil (h : Refines ft s d) (hraw : d.raw = []) :
    nextStamped parse ft s = .ok (none,s) := by
  have hnext : s.nextRaw = (none,s) := by
    rw [nextRaw]
    rcases h.source with ⟨hreader,hmem⟩ | hreader
    · rw [hreader,hmem,hraw]
    · rw [hreader,hraw]
      rfl
  rw [nextStamped,hnext]

/-- The line of the first change, and the file behind it. -/
lemma read_line {cs rest : List Char} (h : '\n' ∉ cs) :
    (cs ++ ['\n'] ++ rest).takeWhile (· ≠ '\n') = cs ∧
      ((cs ++ ['\n'] ++ rest).dropWhile (· ≠ '\n')).tail = rest := by
  have hcs : ∀ c ∈ cs, decide (c ≠ '\n') = true := fun c hc => decide_eq_true fun heq => h (heq ▸ hc)
  rw [List.append_assoc,List.takeWhile_append_of_pos hcs,List.dropWhile_append_of_pos hcs]
  simp

lemma Refines.nextStamped_cons (h : Refines ft s d) {e : Envelope} {raw : List Envelope}
    (hraw : d.raw = e::raw) (hread : parse (e.text ft) = .ok e) (hline : '\n' ∉ e.text ft) :
    ∃ s', nextStamped parse ft s = .ok (some (d.stamped d.seq e,utf8Len (e.text ft)),s') ∧
      Refines ft s' { d with raw, seq := d.seq+1 } ∧ s'.pending = s.pending := by
  rcases h.source with ⟨hreader,hmem⟩ | hreader
  · refine ⟨{ s with mem := raw, seq := s.seq+1 },?_,?_,rfl⟩
    · rw [nextStamped,nextRaw,hreader,hmem,hraw]
      simp only [readRaw,h.stamp,h.seq]
      rfl
    · exact ⟨h.stamp,congrArg (· + 1) h.seq,h.budget,h.pending,h.exhausted,.inl ⟨hreader,rfl⟩⟩
  · have hfile : fileOf ft d.raw = e.text ft ++ ['\n'] ++ fileOf ft raw := by simp [fileOf,hraw]
    obtain ⟨htake,hdrop⟩ := @read_line _ (fileOf ft raw) hline
    refine ⟨{ s with reader := some (fileOf ft raw), seq := s.seq+1 },?_,?_,rfl⟩
    · rw [nextStamped,nextRaw,hreader,hfile]
      simp only [if_neg (by simp : ¬e.text ft ++ ['\n'] ++ fileOf ft raw = []),htake,hdrop,readRaw,hread,
        h.stamp,h.seq]
      rfl
    · exact ⟨h.stamp,congrArg (· + 1) h.seq,h.budget,h.pending,h.exhausted,.inr rfl⟩

lemma fill_none {s s' : TxnDrain} (h : next parse ft s = .ok (none,s')) (chunk : List Envelope)
    (body : ℕ) : fill parse ft s chunk body = .ok (chunk,{ s' with exhausted := true }) := by
  rw [fill]
  split <;> simp_all

lemma fill_some {s s' : TxnDrain} {env : Envelope} {len : ℕ}
    (h : next parse ft s = .ok (some (env,len),s')) (chunk : List Envelope) (body : ℕ) :
    fill parse ft s chunk body =
      if !chunk.isEmpty ∧ s'.budget < body+(len+stampBytes+(!chunk.isEmpty).toNat) then
        .ok (chunk,{ s' with pending := some (env,len) })
      else fill parse ft s' (chunk ++ [env]) (body+(len+stampBytes+(!chunk.isEmpty).toNat)) := by
  rw [fill]
  split <;> simp_all

/-- The sizes that a drain packs by. -/
def sizesOf (ft : FloatText) (memory : Envelope → ℕ) : EnvelopeSizes := ⟨memory,fun e => utf8Len (e.text ft)⟩

lemma fill_cons (d : ElectricCircuits.TxnDrain) (chunk : List Envelope) (body : ℕ) (e : Envelope)
    (raw : List Envelope) : d.fill (sizesOf ft memory) chunk body (e::raw) =
      if (!chunk.isEmpty) = true ∧
          d.budget < body+(utf8Len (e.text ft)+stampBytes+(!chunk.isEmpty).toNat) then
        (chunk,{ d with raw, seq := d.seq+1, pending := some (d.stamped d.seq e,utf8Len (e.text ft)) })
      else { d with seq := d.seq+1 }.fill (sizesOf ft memory) (chunk ++ [d.stamped d.seq e])
        (body+(utf8Len (e.text ft)+stampBytes+(!chunk.isEmpty).toNat)) raw := rfl

lemma Refines.fill {raw : List Envelope} (h : Refines ft s { d with raw }) (hp : d.pending = none)
    (hread : Readable parse ft raw) (chunk : List Envelope) (body : ℕ) :
    ∃ s', fill parse ft s chunk body = .ok ((d.fill (sizesOf ft memory) chunk body raw).1,s') ∧
      Refines ft s' (d.fill (sizesOf ft memory) chunk body raw).2 := by
  have hnext : next parse ft s = nextStamped parse ft s := by rw [next,h.pending,hp]
  induction raw generalizing s d chunk body with
  | nil =>
    rw [fill_none (hnext.trans (h.nextStamped_nil rfl))]
    exact ⟨_,rfl,h.stamp,h.seq,h.budget,h.pending,rfl,h.source⟩
  | cons e raw ih =>
    obtain ⟨hparse,hline⟩ := hread e (.head _)
    obtain ⟨s',hstamped,hs',hpending⟩ := h.nextStamped_cons rfl hparse hline
    rw [fill_some (hnext.trans hstamped),fill_cons]
    by_cases hfull : (!chunk.isEmpty) = true ∧
        d.budget < body+(utf8Len (e.text ft)+stampBytes+(!chunk.isEmpty).toNat)
    · have hfull' := hfull
      rw [← hs'.budget] at hfull'
      rw [if_pos hfull',if_pos hfull]
      exact ⟨_,rfl,hs'.stamp,hs'.seq,hs'.budget,rfl,hs'.exhausted,hs'.source⟩
    · have hfull' := hfull
      rw [← hs'.budget] at hfull'
      have hnext' : next parse ft s' = nextStamped parse ft s' := by rw [next,hpending,h.pending,hp]
      rw [if_neg hfull',if_neg hfull]
      exact ih (d := { d with seq := d.seq+1 }) hs' hp (fun e he => hread e (.tail _ he)) _ _ hnext'

/-- One chunk of the drain is one of the drain of the changes themselves. -/
theorem Refines.nextChunk (h : Refines ft s d) (hread : Readable parse ft d.raw) :
    ∃ s', nextChunk parse ft s = .ok ((d.nextChunk (sizesOf ft memory)).1,s') ∧
      Refines ft s' (d.nextChunk (sizesOf ft memory)).2 := by
  rw [TxnDrain.nextChunk,ElectricCircuits.TxnDrain.nextChunk]
  cases hp : d.pending with
  | none =>
    obtain ⟨s',hfill,hs'⟩ := @Refines.fill ft memory parse _ d _ h hp hread [] 2
    rw [hfill]
    exact ⟨s',by dsimp only; rw [hs'.exhausted],hs'⟩
  | some p =>
    obtain ⟨env,len⟩ := p
    have hnext : next parse ft s = .ok (some (env,len),{ s with pending := none }) := by
      rw [next,h.pending,hp]
    have hs : Refines ft { s with pending := none } { d with pending := none } :=
      ⟨h.stamp,h.seq,h.budget,rfl,h.exhausted,h.source⟩
    obtain ⟨s',hfill,hs'⟩ := @Refines.fill ft memory parse _ { d with pending := none } _ hs rfl hread
      [env] (2+(len+stampBytes))
    have hstep : TxnDrain.fill parse ft s [] 2 =
        TxnDrain.fill parse ft { s with pending := none } [env] (2+(len+stampBytes)) := by
      rw [fill_some hnext,if_neg (by simp)]
      rfl
    rw [hstep,hfill]
    exact ⟨s',by dsimp only; rw [hs'.exhausted],hs'⟩

end TxnDrain
end OnDisk

namespace TxnDrain
variable {sizes : EnvelopeSizes} {d : TxnDrain}

lemma fill_raw (d : TxnDrain) (chunk : List Envelope) (body : ℕ) (raw : List Envelope) :
    (d.fill sizes chunk body raw).2.raw <:+ raw := by
  induction raw generalizing d chunk body with
  | nil => exact List.suffix_rfl
  | cons e raw ih =>
    rw [fill]
    dsimp only
    split_ifs
    · exact List.suffix_cons e raw
    · exact (ih _ _ _).trans (List.suffix_cons e raw)

lemma nextChunk_raw (d : TxnDrain) : (d.nextChunk sizes).2.raw <:+ d.raw := by
  rw [nextChunk]
  cases d.pending with
  | none => exact fill_raw d [] 2 d.raw
  | some p => exact fill_raw { d with pending := none } [p.1] (2+(p.2+stampBytes)) d.raw

/-- The chunks of at most `n` steps. -/
def chunks (sizes : EnvelopeSizes) : ℕ → TxnDrain → List (List Envelope)
  | 0,_ => []
  | n+1,d =>
    match d.nextChunk sizes with
    | (some chunk,d') => chunk::chunks sizes n d'
    | (none,_) => []

/-- The body of a chunk whose envelopes have these sizes. -/
def packed (w : Envelope → ℕ) (chunk : List Envelope) : ℕ := 1+(chunk.map fun e => w e+1).sum

lemma packed_append (w : Envelope → ℕ) (chunk : List Envelope) (e : Envelope) :
    packed w (chunk ++ [e]) = packed w chunk+(w e+1) := by
  simp [packed,add_assoc]

/-- The sizes that a drain packs by leave room for the stamps. -/
structure Packs (sizes : EnvelopeSizes) (w : Envelope → ℕ) (bound : ℕ) (d : TxnDrain) : Prop where
  grows : ∀ k < bound, ∀ e, w (d.stamped k e) ≤ sizes.serialized e+stampBytes
  room : d.seq+d.raw.length ≤ bound
  pending : ∀ p ∈ d.pending, w p.1 ≤ p.2+stampBytes

variable {w : Envelope → ℕ} {bound : ℕ}

/-- The loop counts at least the body of the chunk, and keeps it to the budget once it has two. -/
lemma fill_packs {raw : List Envelope} (h : Packs sizes w bound { d with raw }) {chunk : List Envelope}
    {body : ℕ} (hempty : chunk = [] → body = 2) (hbody : chunk ≠ [] → packed w chunk ≤ body)
    (hbudget : 1 < chunk.length → body ≤ d.budget) :
    let r := d.fill sizes chunk body raw
    (1 < r.1.length → packed w r.1 ≤ d.budget) ∧ Packs sizes w bound r.2 ∧ r.2.budget = d.budget := by
  induction raw generalizing d chunk body with
  | nil =>
    refine ⟨fun hlen => (hbody ?_).trans (hbudget hlen),⟨h.grows,h.room,h.pending⟩,rfl⟩
    rintro rfl
    cases hlen
  | cons e raw ih =>
    have hroom := h.room
    simp only [List.length_cons] at hroom
    have hw := h.grows d.seq (by omega) e
    rw [fill]
    dsimp only
    split_ifs with hfull
    · refine ⟨fun hlen => (hbody ?_).trans (hbudget hlen),⟨h.grows,?_,?_⟩,rfl⟩
      · rintro rfl
        cases hlen
      · change d.seq+1+raw.length ≤ bound
        omega
      · rintro p hp
        obtain rfl := Option.some.inj hp
        exact hw
    · refine ih (d := { d with seq := d.seq+1 }) ⟨h.grows,?_,h.pending⟩ (by simp) (fun _ => ?_) fun hlen => ?_
      · change d.seq+1+raw.length ≤ bound
        omega
      · by_cases hc : chunk = []
        · subst hc
          rw [packed_append,hempty rfl]
          change 1+0+(w (d.stamped d.seq e)+1) ≤ 2+(sizes.serialized e+stampBytes+0)
          change w (d.stamped d.seq e) ≤ sizes.serialized e+stampBytes at hw
          omega
        · have hle := hbody hc
          have hne : (!chunk.isEmpty).toNat = 1 := by simpa using hc
          rw [packed_append,hne]
          change w (d.stamped d.seq e) ≤ sizes.serialized e+stampBytes at hw
          omega
      · have hc : (!chunk.isEmpty) = true := by
          cases chunk with
          | nil => simp at hlen
          | cons => rfl
        exact not_lt.mp fun hlt => hfull ⟨hc,hlt⟩

/-- What marking the last envelope of a chunk does to its size. -/
lemma packed_markLast (hmark : ∀ e : Envelope, w { e with headers := { e.headers with last := some true } } ≤ w e)
    (chunk : List Envelope) : packed w (markLast chunk) ≤ packed w chunk := by
  induction chunk with
  | nil => exact le_rfl
  | cons e chunk ih =>
    by_cases hc : chunk = []
    · subst hc
      exact Nat.add_le_add_left (Nat.add_le_add_right (Nat.succ_le_succ (hmark e)) 0) 1
    · rw [markLast_cons e hc]
      simp only [packed,List.map_cons,List.sum_cons] at ih ⊢
      omega

lemma length_markLast (chunk : List Envelope) : (markLast chunk).length = chunk.length := by
  induction chunk with
  | nil => rfl
  | cons e chunk ih =>
    by_cases hc : chunk = []
    · subst hc
      rfl
    · rw [markLast_cons e hc,List.length_cons,List.length_cons,ih]

variable (hmark : ∀ e : Envelope, w { e with headers := { e.headers with last := some true } } ≤ w e)
include hmark

lemma nextChunk_packs (h : Packs sizes w bound d) :
    Packs sizes w bound (d.nextChunk sizes).2 ∧ (d.nextChunk sizes).2.budget = d.budget ∧
      ∀ chunk ∈ (d.nextChunk sizes).1, 1 < chunk.length → packed w chunk ≤ d.budget := by
  obtain ⟨r,hr,hpacked,hpacks,hbudget⟩ : ∃ r : List Envelope × TxnDrain, d.nextChunk sizes =
      (let chunk := if r.2.exhausted then markLast r.1 else r.1
       (if chunk.isEmpty then none else some chunk,r.2)) ∧
      (1 < r.1.length → packed w r.1 ≤ d.budget) ∧ Packs sizes w bound r.2 ∧ r.2.budget = d.budget := by
    cases hp : d.pending with
    | none =>
      refine ⟨_,by rw [nextChunk,hp],?_⟩
      exact fill_packs h (fun _ => rfl) (fun hne => absurd rfl hne) (by simp)
    | some p =>
      have hsize := h.pending p hp
      refine ⟨_,by rw [nextChunk,hp],?_⟩
      refine fill_packs (d := { d with pending := none }) ⟨h.grows,h.room,by rintro _ ⟨⟩⟩ (by simp)
        (fun _ => ?_) (by simp)
      simp only [packed,List.map_cons,List.map_nil,List.sum_cons,List.sum_nil]
      omega
  rw [hr]
  refine ⟨hpacks,hbudget,fun chunk hchunk hlen => ?_⟩
  dsimp only at hchunk
  split_ifs at hchunk with hexh hnil hnil
  · cases hchunk
  · obtain rfl := Option.some.inj hchunk
    rw [length_markLast] at hlen
    exact (packed_markLast hmark r.1).trans (hpacked hlen)
  · cases hchunk
  · obtain rfl := Option.some.inj hchunk
    exact hpacked hlen

/-- The chunks of a drain that has `n` envelopes left at most. -/
theorem chunks_spec {n : ℕ} (hd : d.Sound) (h : Packs sizes w bound d) (hn : d.rest.length ≤ n) :
    (chunks sizes n d).flatten = d.rest ∧
      ∀ chunk ∈ chunks sizes n d, chunk ≠ [] ∧ (1 < chunk.length → packed w chunk ≤ d.budget) := by
  induction n generalizing d with
  | zero => simp [chunks,List.length_eq_zero_iff.mp (Nat.le_zero.mp hn)]
  | succ n ih =>
    obtain ⟨hsound,hnext⟩ := nextChunk_spec sizes hd
    obtain ⟨hpacks,hbudget,hchunk⟩ := nextChunk_packs hmark h
    rw [chunks]
    generalize d.nextChunk sizes = r at *
    obtain ⟨out,d'⟩ := r
    rcases hnext with ⟨hnone,hrest⟩ | ⟨chunk,hsome,hne,hrest⟩
    · obtain rfl : out = none := hnone
      simp [hrest]
    · obtain rfl : out = some chunk := hsome
      have hpos := List.length_pos_iff.mpr hne
      rw [hrest,List.length_append] at hn
      change chunk.length+d'.rest.length ≤ n+1 at hn
      have hleft : d'.rest.length ≤ n := by omega
      obtain ⟨hflat,hall⟩ := ih hsound hpacks hleft
      refine ⟨by rw [List.flatten_cons,hflat,hrest],List.forall_mem_cons.mpr ⟨⟨hne,hchunk chunk rfl⟩,?_⟩⟩
      intro c hc
      have hle := hall c hc
      rwa [hbudget] at hle

end TxnDrain

section
variable {ft : FloatText}

lemma utf8Len_tail {α : Type*} (f : α → List Char) (xs : List α) :
    utf8Len (Delimited.tail ',' f xs) = (xs.map fun x => utf8Len (f x)+1).sum := by
  induction xs with
  | nil => rfl
  | cons x xs ih =>
    change utf8Len (',' :: f x ++ Delimited.tail ',' f xs) = _
    rw [List.cons_append,utf8Len_cons,utf8Len_append,ih,List.map_cons,List.sum_cons]
    change 1+_ = _
    omega

/-- A bracketed list with a comma between its items. -/
lemma utf8Len_bracketed {α : Type*} {o c : Char} (ho : o.utf8Size = 1) (hc : c.utf8Size = 1)
    (f : α → List Char) {xs : List α} (hne : xs ≠ []) :
    utf8Len (o::[','].intercalate (xs.map f) ++ [c]) = 1+(xs.map fun x => utf8Len (f x)+1).sum := by
  obtain ⟨x,xs,rfl⟩ := List.exists_cons_of_ne_nil hne
  rw [Delimited.intercalate_cons]
  simp only [utf8Len_append,utf8Len_cons,utf8Len_nil,utf8Len_tail,ho,hc,List.map_cons,List.sum_cons]
  omega

lemma utf8Len_object {fs : List (String × Json)} (hne : fs ≠ []) :
    utf8Len ((Json.object fs).chars ft) = 1+(fs.map fun f => utf8Len (Json.fieldChars ft f)+1).sum := by
  rw [Json.chars,Json.charsFields_eq]
  exact utf8Len_bracketed rfl rfl _ hne

lemma utf8Len_bodyText {chunk : List Envelope} (hne : chunk ≠ []) :
    utf8Len (bodyText ft chunk) = TxnDrain.packed (fun e => utf8Len (e.text ft)) chunk := by
  rw [bodyText,Json.chars,Json.charsList_eq,List.map_map]
  exact utf8Len_bracketed rfl rfl _ hne

/-- An optional field of an object, with its comma. -/
def fieldLen (ft : FloatText) (f : Option (String × Json)) : ℕ :=
  (f.toList.map fun f => utf8Len (Json.fieldChars ft f)+1).sum

lemma utf8Len_headers (h : EnvelopeHeaders) : utf8Len (h.toJson.chars ft) =
    1+(utf8Len (Json.fieldChars ft ("operation",.string h.operation))+1)+
      fieldLen ft (h.txid.map fun s => ("txid",.string s))+
      fieldLen ft (h.lsn.map fun s => ("lsn",.string s))+
      fieldLen ft (h.seq.map fun (n : ℕ) => ("seq",Json.int n))+
      fieldLen ft (h.last.map fun b => ("last",.bool b)) := by
  rw [EnvelopeHeaders.toJson,utf8Len_object (List.cons_ne_nil _ _)]
  simp only [List.map_cons,List.map_append,List.sum_cons,List.sum_append,fieldLen]
  omega

/-- The text of an envelope grows as that of its headers does. -/
lemma utf8Len_text (e : Envelope) (h : EnvelopeHeaders) :
    utf8Len ({ e with headers := h }.text ft)+utf8Len (e.headers.toJson.chars ft) =
      utf8Len (e.text ft)+utf8Len (h.toJson.chars ft) := by
  simp only [Envelope.text,Envelope.toJson,utf8Len_object (List.cons_ne_nil _ _),List.map_cons,
    List.map_append,List.sum_cons,List.sum_append,List.map_nil,List.sum_nil,Json.fieldChars,
    utf8Len_append,utf8Len_cons]
  omega

/-- Letters that JSON writes as they are, in one byte. -/
def stampChar (c : Char) : Bool := c ∈ ['0','1','2','3','4','5','6','7','8','9','A','B','C','D','E','F','/']

lemma stampChar_plain {c : Char} (h : stampChar c = true) : utf8Len (escapeJsonChar c) = 1 := by
  have hall : ['0','1','2','3','4','5','6','7','8','9','A','B','C','D','E','F','/'].all
      (fun c => utf8Len (escapeJsonChar c) = 1) = true := by decide
  exact of_decide_eq_true (List.all_eq_true.mp hall c (by simpa [stampChar] using h))

lemma utf8Len_quoted {s : String} (h : ∀ c ∈ s.toList, stampChar c = true) :
    utf8Len (quoted s) = s.toList.length+2 := by
  have hplain : ∀ cs : List Char, (∀ c ∈ cs, stampChar c = true) →
      utf8Len (cs.flatMap escapeJsonChar) = cs.length := by
    intro cs hcs
    induction cs with
    | nil => rfl
    | cons c cs ih =>
      obtain ⟨hc,hcs⟩ := List.forall_mem_cons.mp hcs
      rw [List.flatMap_cons,utf8Len_append,stampChar_plain hc,ih hcs,List.length_cons,add_comm]
  have hquote : '"'.utf8Size = 1 := rfl
  simp only [quoted,utf8Len_cons,utf8Len_append,utf8Len_nil,hplain _ h,hquote]
  omega

/-- The text of an LSN: two numbers of 32 bits in upper-case hexadecimal digits. -/
def IsLsn (s : String) : Prop :=
  ∃ hi lo : List Char, s.toList = hi ++ '/'::lo ∧ hi.length ≤ 8 ∧ lo.length ≤ 8 ∧
    ∀ c ∈ hi ++ lo, stampChar c = true

lemma digit_stampChar {c : Char} (h : c.isDigit = true) : stampChar c = true := by
  have hbounds := Char.isDigit_iff_toNat.mp h
  have hall : ∀ n < 10, stampChar (Char.ofNat (48+n)) = true := by decide
  simp only [Char.reduceToNat] at hbounds
  have hc : 48+(c.toNat-48) = c.toNat := by omega
  rw [← Char.ofNat_toNat c,← hc]
  exact hall _ (by omega)

lemma repr_stampChars (n : ℕ) : ∀ c ∈ (Nat.repr n).toList, stampChar c = true := by
  intro c hc
  rw [Nat.toList_repr] at hc
  exact digit_stampChar (Nat.isDigit_of_mem_toDigits (by decide) (by decide) hc)

lemma fieldLen_some (f : String × Json) : fieldLen ft (some f) =
    utf8Len (quoted f.1)+utf8Len (f.2.chars ft)+2 := by
  have hcolon : ':'.utf8Size = 1 := rfl
  simp only [fieldLen,Option.toList_some,List.map_cons,List.map_nil,List.sum_cons,List.sum_nil,
    Json.fieldChars,utf8Len_append,utf8Len_cons,hcolon]
  omega

lemma fieldLen_txid {xid : ℕ} (h : xid < 2^32) :
    fieldLen ft (some ("txid",.string (toString xid))) ≤ 20 := by
  have hkey : utf8Len (quoted "txid") = 6 := by decide
  have hlen : (Nat.repr xid).length ≤ 10 := (Nat.length_repr_le_iff (by decide)).mpr (by omega)
  rw [fieldLen_some,hkey]
  change 6+utf8Len (quoted (Nat.repr xid))+2 ≤ 20
  rw [utf8Len_quoted (repr_stampChars xid),String.length_toList]
  omega

lemma fieldLen_lsn {lsn : String} (h : IsLsn lsn) : fieldLen ft (some ("lsn",.string lsn)) ≤ 26 := by
  obtain ⟨hi,lo,hsplit,hhi,hlo,hchars⟩ := h
  have hkey : utf8Len (quoted "lsn") = 5 := by decide
  have hall : ∀ c ∈ lsn.toList, stampChar c = true := by
    rw [hsplit]
    intro c hc
    rcases List.mem_append.mp hc with hc | hc
    · exact hchars c (List.mem_append_left _ hc)
    · rcases List.mem_cons.mp hc with rfl | hc
      · rfl
      · exact hchars c (List.mem_append_right _ hc)
  rw [fieldLen_some,hkey]
  change 5+utf8Len (quoted lsn)+2 ≤ 26
  rw [utf8Len_quoted hall,hsplit,List.length_append,List.length_cons]
  omega

lemma utf8Len_stampChars {cs : List Char} (h : ∀ c ∈ cs, stampChar c = true) : utf8Len cs = cs.length := by
  induction cs with
  | nil => rfl
  | cons c cs ih =>
    obtain ⟨hc,hcs⟩ := List.forall_mem_cons.mp h
    have hall : ['0','1','2','3','4','5','6','7','8','9','A','B','C','D','E','F','/'].all
        (fun c => c.utf8Size = 1) = true := by decide
    have hsize := of_decide_eq_true (List.all_eq_true.mp hall c (by simpa [stampChar] using hc))
    rw [utf8Len_cons,ih hcs,hsize,List.length_cons,add_comm]

lemma fieldLen_seq {k : ℕ} (h : k < 2^64) : fieldLen ft (some ("seq",.int k)) ≤ 27 := by
  have hkey : utf8Len (quoted "seq") = 5 := by decide
  have hlen : (Nat.repr k).length ≤ 20 := (Nat.length_repr_le_iff (by decide)).mpr (by omega)
  rw [fieldLen_some,hkey]
  change 5+utf8Len (Nat.repr k).toList+2 ≤ 27
  rw [utf8Len_stampChars (repr_stampChars k),String.length_toList]
  omega

lemma fieldLen_last : fieldLen ft (some ("last",.bool true)) = 12 := by
  have hkey : utf8Len (quoted "last") = 6 := by decide
  rw [fieldLen_some,hkey]
  rfl

/-- The size of an envelope, whether it comes to carry the end marker or not. -/
def stampedLen (ft : FloatText) (e : Envelope) : ℕ :=
  Max.max (utf8Len (e.text ft))
    (utf8Len ({ e with headers := { e.headers with last := some true } }.text ft))

/-- `STAMP_BYTES` is room for the stamps of a commit. -/
lemma stampedLen_le {d : TxnDrain} {xid : ℕ} (hxid : xid < 2^32) (hlsn : IsLsn d.stamp.lsn)
    (htxid : d.stamp.txid = toString xid) {k : ℕ} (hk : k < 2^64) (e : Envelope) :
    stampedLen ft (d.stamped k e) ≤ utf8Len (e.text ft)+stampBytes := by
  have htxid' := @fieldLen_txid ft _ hxid
  have hlsn' := @fieldLen_lsn ft _ hlsn
  have hseq' := @fieldLen_seq ft _ hk
  have hlast' := @fieldLen_last ft
  have hold := @utf8Len_headers ft e.headers
  rw [← htxid] at htxid'
  have hgrow : ∀ last : Option Bool, last = e.headers.last ∨ last = some true →
      utf8Len ({ e with headers := ⟨e.headers.operation,some d.stamp.txid,some d.stamp.lsn,some k,last⟩ }.text ft) ≤
        utf8Len (e.text ft)+96 := by
    intro last hlast
    have hgrow := @utf8Len_text ft e
      ⟨e.headers.operation,some d.stamp.txid,some d.stamp.lsn,some k,last⟩
    have hnew := @utf8Len_headers ft
      ⟨e.headers.operation,some d.stamp.txid,some d.stamp.lsn,some k,last⟩
    simp only [Option.map_some] at hnew
    rcases hlast with rfl | rfl
    · omega
    · simp only [Option.map_some] at hnew
      omega
  exact max_le (hgrow _ (.inl rfl)) (hgrow _ (.inr rfl))

end

lemma markLast_mapIdx (f : ℕ → Envelope → Envelope) (envs : List Envelope) :
    markLast (envs.mapIdx f) = envs.mapIdx fun k e =>
      if k+1 = envs.length then { f k e with headers := { (f k e).headers with last := some true } }
      else f k e := by
  induction envs generalizing f with
  | nil => rfl
  | cons e envs ih =>
    rw [List.mapIdx_cons,List.mapIdx_cons]
    by_cases hnil : envs = []
    · subst hnil
      simp [markLast]
    · have hpos := List.length_pos_iff.mpr hnil
      rw [markLast_cons _ (by simpa using hnil),ih,if_neg (by simp only [List.length_cons]; omega)]
      simp only [List.length_cons,Nat.add_right_cancel_iff]

namespace OnDisk
open ElectricCircuits.TxnDrain (chunks chunks_spec nextChunk_spec nextChunk_raw Packs)
variable {ft : FloatText} {parse : List Char → Except String Envelope}

lemma TxnDrain.Drains.unique {s : TxnDrain} {cs cs' : List (List Envelope)}
    (h : TxnDrain.Drains parse ft s cs) (h' : TxnDrain.Drains parse ft s cs') : cs = cs' := by
  induction h generalizing cs' with
  | done hnext =>
    cases h' with
    | done => rfl
    | more hnext' =>
      rw [hnext] at hnext'
      cases hnext'
  | more hnext _ ih =>
    cases h' with
    | done hnext' =>
      rw [hnext] at hnext'
      cases hnext'
    | more hnext' hrest' =>
      rw [hnext] at hnext'
      cases hnext'
      rw [ih hrest']

/-- The drain of the buffer hands out the chunks of the changes themselves. -/
lemma TxnDrain.Refines.drains {memory : Envelope → ℕ} {s : TxnDrain} {d : ElectricCircuits.TxnDrain}
    {n : ℕ} (h : TxnDrain.Refines ft s d) (hd : d.Sound) (hread : TxnDrain.Readable parse ft d.raw)
    (hn : d.rest.length ≤ n) : TxnDrain.Drains parse ft s (chunks (TxnDrain.sizesOf ft memory) n d) := by
  induction n generalizing s d with
  | zero =>
    obtain ⟨s',hnext,-⟩ := @Refines.nextChunk ft memory _ _ _ h hread
    have hnil : d.rest = [] := List.length_eq_zero_iff.mp (Nat.le_zero.mp hn)
    rcases (nextChunk_spec (TxnDrain.sizesOf ft memory) hd).2 with ⟨hnone,-⟩ | ⟨chunk,-,hne,hrest⟩
    · rw [hnone] at hnext
      exact .done hnext
    · rw [hnil] at hrest
      exact absurd (List.append_eq_nil_iff.mp hrest.symm).1 hne
  | succ n ih =>
    obtain ⟨s',hnext,hs'⟩ := @Refines.nextChunk ft memory _ _ _ h hread
    obtain ⟨hsound,hout⟩ := nextChunk_spec (TxnDrain.sizesOf ft memory) hd
    have hraw := @nextChunk_raw (TxnDrain.sizesOf ft memory) d
    rw [chunks]
    generalize d.nextChunk (TxnDrain.sizesOf ft memory) = r at *
    obtain ⟨out,d'⟩ := r
    rcases hout with ⟨hnone,-⟩ | ⟨chunk,hsome,hne,hrest⟩
    · obtain rfl : out = none := hnone
      exact .done hnext
    · obtain rfl : out = some chunk := hsome
      have hpos := List.length_pos_iff.mpr hne
      rw [hrest,List.length_append] at hn
      change chunk.length+d'.rest.length ≤ n+1 at hn
      exact .more hnext (ih hs' hsound (fun e he => hread e (hraw.subset he)) (by omega))

/-- Draining the pushed changes of a transaction, whatever the memory cap: one list of chunks, which are
the changes in their order, each stamped with its place, the last one with the end marker. No chunk is
empty, and the body of one that holds two changes keeps to the budget. -/
theorem txnBuffer_drain (ft : FloatText) (parse : List Char → Except String Envelope)
    {xid : ℕ} (hxid : xid < 2^32) {lsn : String} (hlsn : IsLsn lsn) (budget : ℕ)
    (envs : List (Envelope × ℕ)) (hlen : envs.length ≤ 2^64)
    (hread : TxnDrain.Readable parse ft (envs.map (·.1))) :
    ∃ out : List (List Envelope),
      (∀ (memory : Envelope → ℕ) (cap : ℕ) (cs : List (List Envelope)),
        TxnDrain.Drains parse ft
          (((TxnBuffer.new xid ⟨cap,budget⟩).pushAll ft memory envs).drain ⟨lsn,toString xid⟩) cs ↔ cs = out) ∧
      out.flatten = (envs.map (·.1)).mapIdx (fun k e =>
        { e with headers := { e.headers with
          lsn := some lsn
          txid := some (toString xid)
          seq := some k
          last := if k+1 = envs.length then some true else e.headers.last } }) ∧
      ∀ chunk ∈ out, chunk ≠ [] ∧ (1 < chunk.length → utf8Len (bodyText ft chunk) ≤ budget) := by
  let d : ElectricCircuits.TxnDrain := ⟨envs.map (·.1),⟨lsn,toString xid⟩,0,budget,none,false⟩
  have hsound : d.Sound := fun h => nomatch h
  have hpacks : Packs (TxnDrain.sizesOf ft fun _ => 0) (stampedLen ft) (2^64) d :=
    ⟨fun k hk e => stampedLen_le hxid hlsn rfl hk e,by simpa [d] using hlen,fun _ hp => nomatch hp⟩
  have hmark : ∀ e : Envelope,
      stampedLen ft { e with headers := { e.headers with last := some true } } ≤ stampedLen ft e :=
    fun e => max_le (le_max_right _ _) (le_max_right _ _)
  obtain ⟨hflat,hall⟩ := chunks_spec hmark hsound hpacks le_rfl
  refine ⟨_,fun memory cap cs => ?_,hflat.trans ?_,fun chunk hchunk => ?_⟩
  · have hnew : (TxnBuffer.new xid ⟨cap,budget⟩).Holds ft [] := .inl ⟨rfl,rfl⟩
    obtain ⟨hholds,hcfg⟩ := @TxnBuffer.Holds.pushAll ft memory _ _ hnew envs
    have hrefines : TxnDrain.Refines ft
        (((TxnBuffer.new xid ⟨cap,budget⟩).pushAll ft memory envs).drain ⟨lsn,toString xid⟩) d :=
      ⟨rfl,rfl,congrArg TxnBufferConfig.appendBytes hcfg,rfl,rfl,hholds⟩
    have hdrains := @TxnDrain.Refines.drains ft parse (fun _ => 0) _ _ _ hrefines hsound hread le_rfl
    exact ⟨fun h => h.unique hdrains,fun h => h ▸ hdrains⟩
  · have hunread : d.unread = (envs.map (·.1)).mapIdx fun k => d.stamped k := by
      simp [d,ElectricCircuits.TxnDrain.unread]
    rw [ElectricCircuits.TxnDrain.rest,hunread,markLast_mapIdx,List.length_map]
    congr 1
    funext k e
    split_ifs <;> rfl
  · obtain ⟨hne,hbudget⟩ := hall chunk hchunk
    refine ⟨hne,fun hlen => le_trans ?_ (hbudget hlen)⟩
    rw [utf8Len_bodyText hne]
    exact Nat.add_le_add_left (List.sum_le_sum fun e _ => Nat.succ_le_succ (le_max_left _ _)) 1

section Sample

def sampleChange (key : String) : Envelope := ⟨"issues",key,none,none,⟨"delete",none,none,none,none⟩⟩

/-- Reads back the lines of two changes. -/
def sampleParse (cs : List Char) : Except String Envelope :=
  if cs = (sampleChange "1").text .positional then .ok (sampleChange "1")
  else if cs = (sampleChange "2").text .positional then .ok (sampleChange "2")
  else .error "not a change"

theorem sample_txnBuffer_drain : ∃ out : List (List Envelope),
    (∀ (memory : Envelope → ℕ) (cap : ℕ) (cs : List (List Envelope)),
      TxnDrain.Drains sampleParse .positional (((TxnBuffer.new 7 ⟨cap,200⟩).pushAll .positional memory
        [(sampleChange "1",9),(sampleChange "2",9)]).drain ⟨"0/16B3748",toString 7⟩) cs ↔ cs = out) ∧
    ∀ chunk ∈ out, chunk ≠ [] ∧ (1 < chunk.length → utf8Len (bodyText .positional chunk) ≤ 200) := by
  have hchars : (['0'] ++ "16B3748".toList).all stampChar = true := by decide
  have hlsn : IsLsn "0/16B3748" :=
    ⟨['0'],"16B3748".toList,by decide,by decide,by decide,List.all_eq_true.mp hchars⟩
  have hread : TxnDrain.Readable sampleParse .positional [sampleChange "1",sampleChange "2"] := by
    intro e he
    rcases List.mem_pair.mp he with rfl | rfl
    · exact ⟨if_pos rfl,by decide +kernel⟩
    · have hne : (sampleChange "2").text .positional ≠ (sampleChange "1").text .positional := by
        decide +kernel
      exact ⟨(if_neg hne).trans (if_pos rfl),by decide +kernel⟩
  obtain ⟨out,hout,-,hall⟩ := txnBuffer_drain .positional sampleParse (by decide : 7 < 2^32) hlsn 200
    [(sampleChange "1",9),(sampleChange "2",9)] (by decide) hread
  exact ⟨out,hout,hall⟩

end Sample
end OnDisk
end ElectricCircuits
