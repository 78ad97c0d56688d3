import ElectricCircuits.TxnBuffer
import Mathlib.Data.List.Infix
import Mathlib.Data.Nat.Find
import Mathlib.Logic.Relation

/-! The ingestor: one replication connection after the other, each of which sends the transactions again
from the position that the slot has confirmed, buffers them and appends them to the change log. -/
namespace ElectricCircuits

/-- A decoded change before the commit's stamps. -/
structure Change where
  type_ : String
  key : String
  value : Option Json
  old : Option Json
  operation : String

def Change.envelope (c : Change) : Envelope :=
  ⟨c.type_,c.key,c.value,c.old,⟨c.operation,none,none,none,none⟩⟩

inductive Decoded where
  | env (change : Change)
  | sync (n : ℤ)
  | none_

/-- A transaction with the position of its commit record, as a number and as text, and its end. -/
structure SourceTxn (M : Type*) where
  xid : ℕ
  lsn : ℕ
  lsnText : String
  endLsn : ℕ
  messages : List M

/-- The committed transactions of the source in commit order. -/
structure SourceTxns (M : Type*) where
  txn : ℕ → SourceTxn M
  ends : ∀ i, (txn i).lsn < (txn i).endLsn
  follows : ∀ i, (txn i).endLsn ≤ (txn (i+1)).lsn

inductive ReplicationEvent (M : Type*) where
  | begin_ (xid : ℕ)
  | xLogData (message : M)
  | commit (lsn : String) (endLsn : ℕ)
  | keepAlive (walEnd : ℕ)
  | message

/-- The server's side of a connection: the transaction to send next, and what is left of it to send
once its `Begin` is sent. -/
structure WalSender (M : Type*) where
  next : ℕ
  sending : Option (List M)

section
variable {M V : Type*}

namespace SourceTxns

/-- The position of the commit of a transaction. -/
def lsn (txns : SourceTxns M) (i : ℕ) : ℕ := (txns.txn i).lsn

/-- What the server sends next: the transactions in order and, at any time, a keepalive whose position is
not beyond a commit that it has not begun to send. -/
inductive Sends (txns : SourceTxns M) : WalSender M → ReplicationEvent M → WalSender M → Prop where
  | begin_ (n : ℕ) : Sends txns ⟨n,none⟩ (.begin_ (txns.txn n).xid) ⟨n,some (txns.txn n).messages⟩
  | xLogData (n : ℕ) (m : M) (ms : List M) : Sends txns ⟨n,some (m::ms)⟩ (.xLogData m) ⟨n,some ms⟩
  | commit (n : ℕ) : Sends txns ⟨n,some []⟩ (.commit (txns.txn n).lsnText (txns.txn n).endLsn) ⟨n+1,none⟩
  | keepAlive {w : WalSender M} {walEnd : ℕ}
    (hsent : ∀ i, txns.lsn i < walEnd → i < w.next ∨ i = w.next ∧ w.sending.isSome = true) :
    Sends txns w (.keepAlive walEnd) w
  | message (w : WalSender M) : Sends txns w .message w

end SourceTxns

/-- A commit that is being appended. -/
structure Appending where
  drain : TxnDrain
  lsn : String
  endLsn : ℕ
  sync : Option ℤ

/-- The ingestor's side of a connection. -/
structure ReplicationClient where
  txn : Option TxnBuffer
  appending : Option Appending
  applied : ℕ

/-- A keepalive may advance the slot only between transactions. -/
def keepaliveAckLsn (transactionOpen : Bool) (walEnd : ℕ) : Option ℕ :=
  if transactionOpen then none else some walEnd

namespace ReplicationClient

def updateAppliedLsn (c : ReplicationClient) (lsn : ℕ) : ReplicationClient :=
  { c with applied := max c.applied lsn }

/-- The loop's handling of one message up to the append of a commit. -/
def onEvent (sizes : EnvelopeSizes) (cfg : TxnBufferConfig) (onChange : M → Decoded)
    (c : ReplicationClient) : ReplicationEvent M → ReplicationClient
  | .begin_ xid => { c with txn := some (.new xid) }
  | .xLogData m =>
    match c.txn with
    | none => c
    | some t =>
      match onChange m with
      | .env change => { c with txn := some (t.push sizes cfg change.envelope) }
      | .sync n => { c with txn := some (t.setSync n) }
      | .none_ => c
  | .commit lsn endLsn =>
    match c.txn with
    | none => c
    | some t =>
      { c with txn := none, appending := some ⟨t.drain cfg ⟨lsn,toString t.xid⟩,lsn,endLsn,t.sync⟩ }
  | .keepAlive walEnd =>
    match keepaliveAckLsn c.txn.isSome walEnd with
    | some ackLsn => c.updateAppliedLsn ackLsn
    | none => c
  | .message => c

end ReplicationClient

structure Connection (M : Type*) where
  server : WalSender M
  client : ReplicationClient

/-- The ingestor, the slot and the log. `view` is what decoding depends on besides the message: the
engine's tables as they stand and the incarnation that the connection was admitted with. -/
structure Ingest (V M : Type*) where
  view : V
  confirmed : ℕ
  connection : Option (Connection M)
  log : List Envelope
  lastLsn : String
  syncSeq : ℤ

namespace Ingest

def init (view : V) : Ingest V M := ⟨view,0,none,[],"0/0",0⟩

variable (txns : SourceTxns M) (onChange : V → M → Decoded) (sizes : EnvelopeSizes)
  (cfg : TxnBufferConfig)

/-- What can happen. An append that fails is one that is not made, or is made and its answer lost, before
the connection is dropped; so do an error, a lost connection, a shutdown and a crash drop it. -/
inductive Step : Ingest V M → Ingest V M → Prop where
  | swap (s : Ingest V M) (view : V) : Step s { s with view }
  | connect (s : Ingest V M) {n : ℕ} (hnone : s.connection = none)
    (hn : ∀ i, i < n ↔ txns.lsn i < s.confirmed) :
    Step s { s with connection := some ⟨⟨n,none⟩,⟨none,none,0⟩⟩ }
  | receive (s : Ingest V M) {c : Connection M} {event : ReplicationEvent M} {server : WalSender M}
    (hc : s.connection = some c) (hidle : c.client.appending = none)
    (hsends : txns.Sends c.server event server) :
    Step s { s with
      connection := some ⟨server,c.client.onEvent sizes cfg (onChange s.view) event⟩ }
  | land (s : Ingest V M) {c : Connection M} {a : Appending} {chunk : List Envelope} {drain : TxnDrain}
    (hc : s.connection = some c) (ha : c.client.appending = some a)
    (hchunk : a.drain.nextChunk sizes = (some chunk,drain)) :
    Step s { s with
      log := s.log ++ chunk
      connection := some { c with client := { c.client with appending := some { a with drain } } } }
  | acknowledge (s : Ingest V M) {c : Connection M} {a : Appending} {drain : TxnDrain}
    (hc : s.connection = some c) (ha : c.client.appending = some a)
    (hchunk : a.drain.nextChunk sizes = (none,drain)) :
    Step s { s with
      connection := some { c with
        client := { c.client with appending := none }.updateAppliedLsn a.endLsn }
      lastLsn := a.lsn
      syncSeq := a.sync.elim s.syncSeq (max s.syncSeq) }
  | feedback (s : Ingest V M) {c : Connection M} (hc : s.connection = some c) :
    Step s { s with confirmed := max s.confirmed c.client.applied }
  | drop (s : Ingest V M) : Step s { s with connection := none }

def Reachable (s : Ingest V M) : Prop :=
  ∃ view, Relation.ReflTransGen (Step txns onChange sizes cfg) (init view) s

end Ingest

/-- One append of a transaction, as far as it went: what the changes were decoded to, and how many
landed. -/
structure Copy where
  commit : ℕ
  changes : List Envelope
  count : ℕ

def Copy.Complete (c : Copy) : Prop := c.count = c.changes.length

instance (c : Copy) : Decidable c.Complete := inferInstanceAs (Decidable (_ = _))

namespace SourceTxns
variable (txns : SourceTxns M) (onChange : V → M → Decoded)

/-- A transaction's envelopes: the changes in order, stamped with their index, and the end marker on the
last one. -/
def envelopes (i : ℕ) (changes : List Envelope) : List Envelope :=
  (Commit.mk (toString (txns.txn i).xid) (txns.txn i).lsnText changes).envelopes

/-- What a copy has in the log. -/
def written (c : Copy) : List Envelope := (txns.envelopes c.commit c.changes).take c.count

/-- What the decoder makes of messages, each under the view of its time. -/
def decodeAll (sent : List (V × M)) : List Envelope :=
  sent.filterMap fun p =>
    match onChange p.1 p.2 with
    | .env change => some change.envelope
    | _ => none

/-- The transaction may decode to these changes. -/
def Decodes (i : ℕ) (changes : List Envelope) : Prop :=
  ∃ sent : List (V × M), sent.map Prod.snd = (txns.txn i).messages ∧ changes = decodeAll onChange sent

/-- The transaction is in the log in full. -/
def Stored (log : List Envelope) (i : ℕ) : Prop :=
  ∃ changes, txns.Decodes onChange i changes ∧ txns.envelopes i changes <:+: log

end SourceTxns

/-- The order of copies: a copy is not of a later transaction than the one behind a complete copy before
it, nor than the one of an incomplete copy before it. -/
inductive InOrder : List Copy → ℕ → Prop where
  | nil : InOrder [] 0
  | copy {copies : List Copy} {limit : ℕ} {c : Copy} (h : InOrder copies limit)
    (hc : c.commit ≤ limit) : InOrder (copies ++ [c]) (if c.Complete then c.commit+1 else c.commit)

section
variable {txns : SourceTxns M} {onChange : V → M → Decoded}

/-- A transaction below the limit of an order was copied in full. -/
lemma InOrder.complete {copies : List Copy} {limit : ℕ} (h : InOrder copies limit) {i : ℕ}
    (hi : i < limit) : ∃ c ∈ copies, c.commit = i ∧ c.Complete := by
  induction h with
  | nil => cases hi
  | @copy copies limit c _ hc ih =>
    by_cases hlt : i < c.commit
    · obtain ⟨c',hc',hi'⟩ := ih (hlt.trans_le hc)
      exact ⟨c',List.mem_append_left _ hc',hi'⟩
    · split_ifs at hi with hcomplete
      · exact ⟨c,by simp,by omega,hcomplete⟩
      · exact absurd hi hlt

namespace SourceTxns

lemma lsn_lt (txns : SourceTxns M) {i j : ℕ} (h : i < j) : (txns.txn i).endLsn ≤ txns.lsn j := by
  induction h with
  | refl => exact txns.follows i
  | @step j _ ih => exact ih.trans ((txns.ends j).le.trans (txns.follows j))

lemma lsn_strictMono (txns : SourceTxns M) {i j : ℕ} (h : i < j) : txns.lsn i < txns.lsn j :=
  (txns.ends i).trans_le (txns.lsn_lt h)

lemma le_lsn (txns : SourceTxns M) (i : ℕ) : i ≤ txns.lsn i := by
  induction i with
  | zero => exact Nat.zero_le _
  | succ i ih => exact Nat.succ_le_of_lt (ih.trans_lt (txns.lsn_strictMono (Nat.lt_succ_self i)))

@[simp] lemma length_envelopes (txns : SourceTxns M) (i : ℕ) (changes : List Envelope) :
    (txns.envelopes i changes).length = changes.length := Commit.length_envelopes _

lemma written_complete (txns : SourceTxns M) {c : Copy} (h : c.Complete) :
    txns.written c = txns.envelopes c.commit c.changes := by
  rw [written,h,← txns.length_envelopes c.commit,List.take_length]

/-- The changes carry no end marker of their own. -/
lemma last_decodeAll {sent : List (V × M)} : ∀ e ∈ decodeAll onChange sent, e.headers.last = none := by
  intro e he
  obtain ⟨p,-,hp⟩ := List.mem_filterMap.mp he
  cases hd : onChange p.1 p.2 with
  | env change =>
    rw [hd] at hp
    rw [← Option.some.inj hp]
    rfl
  | sync n => simp [hd] at hp
  | none_ => simp [hd] at hp

variable (onChange) in
lemma decodeAll_concat (sent : List (V × M)) (v : V) (m : M) :
    decodeAll onChange (sent ++ [(v,m)]) = decodeAll onChange sent ++ decodeAll onChange [(v,m)] :=
  List.filterMap_append

/-- A complete copy is in the log in full. -/
lemma stored_of_complete {copies : List Copy} {c : Copy} (hc : c ∈ copies) (hfull : c.Complete)
    (hd : txns.Decodes onChange c.commit c.changes) :
    txns.Stored onChange (copies.flatMap txns.written) c.commit := by
  obtain ⟨A,B,rfl⟩ := List.append_of_mem hc
  refine ⟨c.changes,hd,A.flatMap txns.written,B.flatMap txns.written,?_⟩
  rw [List.flatMap_append,List.flatMap_cons,txns.written_complete hfull,List.append_assoc]

end SourceTxns
end

namespace Ingest
variable {txns : SourceTxns M} {onChange : V → M → Decoded} {sizes : EnvelopeSizes}
  {cfg : TxnBufferConfig}

variable (txns onChange) in
/-- A connection whose transactions before `n` are appended: between transactions, while it receives
transaction `n`, or while it appends it as the last copy. -/
inductive ConnectionInv (copies : List Copy) (limit : ℕ) : Connection M → ℕ → Prop where
  | idle {n applied : ℕ} (hn : n ≤ limit) :
    ConnectionInv copies limit ⟨⟨n,none⟩,⟨none,none,applied⟩⟩ n
  | receiving {n applied : ℕ} {ms : List M} {t : TxnBuffer} (hn : n ≤ limit) (sent : List (V × M))
    (hsent : sent.map Prod.snd ++ ms = (txns.txn n).messages)
    (hcontents : t.contents = SourceTxns.decodeAll onChange sent) (hxid : t.xid = (txns.txn n).xid) :
    ConnectionInv copies limit ⟨⟨n,some ms⟩,⟨some t,none,applied⟩⟩ n
  | appending {n applied : ℕ} {a : Appending} {before : List Copy} {limit' : ℕ} {c : Copy}
    (hcopies : copies = before ++ [c]) (horder : InOrder before limit') (hn : n ≤ limit')
    (hcommit : c.commit = n) (hlimit : limit = if c.Complete then n+1 else n)
    (hsound : a.drain.Sound) (hrest : txns.written c ++ a.drain.rest = txns.envelopes n c.changes)
    (hlsn : a.lsn = (txns.txn n).lsnText) (hend : a.endLsn = (txns.txn n).endLsn) :
    ConnectionInv copies limit ⟨⟨n+1,none⟩,⟨none,some a,applied⟩⟩ n

variable (txns onChange) in
/-- What holds at any time. -/
structure Inv (s : Ingest V M) (copies : List Copy) (limit : ℕ) : Prop where
  log : s.log = copies.flatMap txns.written
  order : InOrder copies limit
  decodes : ∀ c ∈ copies, txns.Decodes onChange c.commit c.changes ∧ c.count ≤ c.changes.length
  confirmed : ∀ i, txns.lsn i < s.confirmed → i < limit
  connection : ∀ c ∈ s.connection, ∃ n, ConnectionInv txns onChange copies limit c n ∧
    ∀ i, txns.lsn i < s.confirmed ∨ txns.lsn i < c.client.applied → i < n

lemma ConnectionInv.le_limit {copies : List Copy} {limit : ℕ} {c : Connection M} {n : ℕ}
    (h : ConnectionInv txns onChange copies limit c n) : n ≤ limit := by
  cases h with
  | idle hn => exact hn
  | receiving hn => exact hn
  | appending _ _ _ _ hlimit =>
    rw [hlimit]
    split_ifs <;> omega

lemma inv_init (view : V) : Inv txns onChange (init view) [] 0 where
  log := rfl
  order := .nil
  decodes := by simp
  confirmed := fun i hi => absurd hi (Nat.not_lt_zero _)
  connection := by simp [init]

/-- The connection is replaced while nothing else changes. -/
lemma Inv.reconnect {s : Ingest V M} {copies : List Copy} {limit : ℕ} (h : Inv txns onChange s copies limit)
    {connection : Option (Connection M)}
    (hc : ∀ c ∈ connection, ∃ n, ConnectionInv txns onChange copies limit c n ∧
      ∀ i, txns.lsn i < s.confirmed ∨ txns.lsn i < c.client.applied → i < n) :
    Inv txns onChange { s with connection } copies limit :=
  ⟨h.log,h.order,h.decodes,h.confirmed,hc⟩

/-- The commit message begins a copy of which nothing has landed. -/
lemma Inv.commit {s : Ingest V M} {copies : List Copy} {limit n applied : ℕ} {t : TxnBuffer}
    (h : Inv txns onChange s copies limit) (hn : n ≤ limit) {sent : List (V × M)}
    (hsent : sent.map Prod.snd = (txns.txn n).messages)
    (hcontents : t.contents = SourceTxns.decodeAll onChange sent) (hxid : t.xid = (txns.txn n).xid)
    (hcov : ∀ i, txns.lsn i < s.confirmed ∨ txns.lsn i < applied → i < n) :
    let a : Appending := ⟨t.drain cfg ⟨(txns.txn n).lsnText,toString t.xid⟩,(txns.txn n).lsnText,
      (txns.txn n).endLsn,t.sync⟩
    ∃ copies' limit', Inv txns onChange
      { s with connection := some ⟨⟨n+1,none⟩,⟨none,some a,applied⟩⟩ } copies' limit' := by
  intro a
  have hlast : ∀ e ∈ t.contents, e.headers.last = none := by
    rw [hcontents]
    exact SourceTxns.last_decodeAll
  have hrest : a.drain.rest = txns.envelopes n t.contents := by
    rw [SourceTxns.envelopes,← hxid]
    exact TxnDrain.rest_drain cfg t _ hlast
  have hlimit : n ≤ (if (⟨n,t.contents,0⟩ : Copy).Complete then n+1 else n) := by
    split_ifs <;> omega
  refine ⟨copies ++ [⟨n,t.contents,0⟩],_,?_,.copy h.order hn,?_,?_,?_⟩
  · rw [List.flatMap_append,← h.log]
    simp [SourceTxns.written]
  · intro c hc
    rcases List.mem_append.mp hc with hc | hc
    · exact h.decodes c hc
    · rw [List.mem_singleton.mp hc]
      exact ⟨⟨sent,hsent,hcontents⟩,Nat.zero_le _⟩
  · exact fun i hi => (hcov i (.inl hi)).trans_le hlimit
  · rintro c ⟨⟩
    refine ⟨n,.appending rfl h.order hn rfl rfl (TxnDrain.sound_drain cfg t _) ?_ rfl rfl,hcov⟩
    rw [hrest]
    simp [SourceTxns.written]

/-- One message. -/
lemma Inv.receive {s : Ingest V M} {copies : List Copy} {limit : ℕ} (h : Inv txns onChange s copies limit)
    {c : Connection M} {event : ReplicationEvent M} {server : WalSender M} (hc : s.connection = some c)
    (hidle : c.client.appending = none) (hsends : txns.Sends c.server event server) :
    ∃ copies' limit', Inv txns onChange { s with
      connection := some ⟨server,c.client.onEvent sizes cfg (onChange s.view) event⟩ } copies' limit' := by
  obtain ⟨n,hconn,hcov⟩ := h.connection c hc
  cases hconn with
  | idle hn =>
    cases hsends with
    | begin_ =>
      refine ⟨copies,limit,h.reconnect ?_⟩
      rintro c ⟨⟩
      exact ⟨n,.receiving hn [] rfl rfl rfl,hcov⟩
    | keepAlive hsent =>
      refine ⟨copies,limit,h.reconnect ?_⟩
      rintro c ⟨⟩
      refine ⟨n,.idle hn,fun i hi => ?_⟩
      rcases hi with hi | hi
      · exact hcov i (.inl hi)
      · rcases lt_max_iff.mp hi with hi | hi
        · exact hcov i (.inr hi)
        · exact (hsent i hi).resolve_right (by simp)
    | message =>
      refine ⟨copies,limit,h.reconnect ?_⟩
      rintro c ⟨⟩
      exact ⟨n,.idle hn,hcov⟩
  | @receiving _ applied ms t hn sent hsent hcontents hxid =>
    cases hsends with
    | xLogData _ m ms =>
      refine ⟨copies,limit,h.reconnect ?_⟩
      rintro c ⟨⟩
      have hsent' : (sent ++ [(s.view,m)]).map Prod.snd ++ ms = (txns.txn n).messages := by
        simpa using hsent
      have hnext := SourceTxns.decodeAll_concat onChange sent s.view m
      refine ⟨n,?_,?_⟩
      · simp only [ReplicationClient.onEvent]
        cases hd : onChange s.view m with
        | env change =>
          refine .receiving hn _ hsent' ?_ ?_
          · rw [hnext,TxnBuffer.contents_push,hcontents]
            simp [SourceTxns.decodeAll,hd]
          · rw [TxnBuffer.xid_push,hxid]
        | sync k =>
          refine .receiving hn _ hsent' ?_ hxid
          rw [hnext,TxnBuffer.contents_setSync,hcontents]
          simp [SourceTxns.decodeAll,hd]
        | none_ =>
          refine .receiving hn _ hsent' ?_ hxid
          rw [hnext,hcontents]
          simp [SourceTxns.decodeAll,hd]
      · have happlied : ((⟨some t,none,applied⟩ : ReplicationClient).onEvent sizes cfg (onChange s.view)
            (.xLogData m)).applied = applied := by
          simp only [ReplicationClient.onEvent]
          cases onChange s.view m <;> rfl
        rw [happlied]
        exact hcov
    | commit => exact h.commit hn (by simpa using hsent) hcontents hxid hcov
    | keepAlive =>
      refine ⟨copies,limit,h.reconnect ?_⟩
      rintro c ⟨⟩
      exact ⟨n,.receiving hn sent hsent hcontents hxid,hcov⟩
    | message =>
      refine ⟨copies,limit,h.reconnect ?_⟩
      rintro c ⟨⟩
      exact ⟨n,.receiving hn sent hsent hcontents hxid,hcov⟩
  | appending => cases hidle

/-- A chunk lands behind what has landed of its copy. -/
lemma Inv.land {s : Ingest V M} {copies : List Copy} {limit : ℕ} (h : Inv txns onChange s copies limit)
    {c : Connection M} {a : Appending} {chunk : List Envelope} {drain : TxnDrain}
    (hc : s.connection = some c) (ha : c.client.appending = some a)
    (hchunk : a.drain.nextChunk sizes = (some chunk,drain)) :
    ∃ copies' limit', Inv txns onChange { s with
      log := s.log ++ chunk
      connection := some { c with
        client := { c.client with appending := some { a with drain } } } } copies' limit' := by
  obtain ⟨n,hconn,hcov⟩ := h.connection c hc
  cases hconn with
  | idle => cases ha
  | receiving => cases ha
  | @appending _ applied a' before limit' x hcopies horder hn hcommit hlimit hsound hrest hlsn hend =>
    obtain rfl := Option.some.inj ha
    obtain ⟨hsound',hnext⟩ := TxnDrain.nextChunk_spec sizes hsound
    rw [hchunk] at hsound' hnext
    have hdrain : a'.drain.rest = chunk ++ drain.rest := by
      rcases hnext with ⟨hnone,-⟩ | ⟨_,hsome,-,hdrain⟩
      · cases hnone
      · rwa [← Option.some.inj hsome] at hdrain
    have hx := h.decodes x (by simp [hcopies])
    have hlen : (txns.written x).length = x.count := by
      simpa [SourceTxns.written] using hx.2
    have hfull : txns.envelopes n x.changes = (txns.written x ++ chunk) ++ drain.rest := by
      rw [← hrest,hdrain,List.append_assoc]
    have hcount : x.count+chunk.length ≤ x.changes.length := by
      have heq := congrArg List.length hfull
      simp only [SourceTxns.length_envelopes,List.length_append,hlen] at heq
      omega
    have hwritten : txns.written ⟨n,x.changes,x.count+chunk.length⟩ = txns.written x ++ chunk := by
      have hboth : x.count+chunk.length = (txns.written x ++ chunk).length := by
        rw [List.length_append,hlen]
      rw [SourceTxns.written,hfull,hboth,List.take_left']
      rfl
    refine ⟨before ++ [⟨n,x.changes,x.count+chunk.length⟩],_,?_,.copy horder hn,?_,?_,?_⟩
    · rw [h.log,hcopies,List.flatMap_append,List.flatMap_append,List.append_assoc,
        List.flatMap_singleton,List.flatMap_singleton,hwritten]
    · intro y hy
      rcases List.mem_append.mp hy with hy | hy
      · exact h.decodes y (by simp [hcopies,hy])
      · rw [List.mem_singleton.mp hy]
        exact ⟨hcommit ▸ hx.1,hcount⟩
    · have hlim : n ≤ if (⟨n,x.changes,x.count+chunk.length⟩ : Copy).Complete then n+1 else n := by
        split_ifs <;> omega
      exact fun i hi => (hcov i (.inl hi)).trans_le hlim
    · rintro y ⟨⟩
      refine ⟨n,.appending rfl horder hn rfl rfl hsound' ?_ hlsn hend,hcov⟩
      rw [hwritten,hfull]

/-- Only when all of a transaction has landed is its end acknowledged. -/
lemma Inv.acknowledge {s : Ingest V M} {copies : List Copy} {limit : ℕ}
    (h : Inv txns onChange s copies limit) {c : Connection M} {a : Appending} {drain : TxnDrain}
    (hc : s.connection = some c) (ha : c.client.appending = some a)
    (hchunk : a.drain.nextChunk sizes = (none,drain)) :
    Inv txns onChange { s with
      connection := some { c with
        client := { c.client with appending := none }.updateAppliedLsn a.endLsn }
      lastLsn := a.lsn
      syncSeq := a.sync.elim s.syncSeq (max s.syncSeq) } copies limit := by
  obtain ⟨n,hconn,hcov⟩ := h.connection c hc
  cases hconn with
  | idle => cases ha
  | receiving => cases ha
  | @appending _ applied a' before limit' x hcopies horder hn hcommit hlimit hsound hrest hlsn hend =>
    obtain rfl := Option.some.inj ha
    obtain ⟨-,hnext⟩ := TxnDrain.nextChunk_spec sizes hsound
    rw [hchunk] at hnext
    have hnil : a'.drain.rest = [] := by
      rcases hnext with ⟨-,hnil⟩ | ⟨_,hsome,-⟩
      · exact hnil
      · cases hsome
    have hx := h.decodes x (by simp [hcopies])
    have hcomplete : x.Complete := by
      have hlen : (txns.written x).length = x.count := by
        simpa [SourceTxns.written] using hx.2
      rw [hnil,List.append_nil] at hrest
      rw [Copy.Complete,← hlen,hrest,SourceTxns.length_envelopes]
    refine ⟨h.log,h.order,h.decodes,h.confirmed,?_⟩
    rintro c ⟨⟩
    refine ⟨n+1,.idle (by rw [hlimit,if_pos hcomplete]),fun i hi => ?_⟩
    rcases hi with hi | hi
    · exact (hcov i (.inl hi)).trans (Nat.lt_succ_self n)
    · rcases lt_max_iff.mp hi with hi | hi
      · exact (hcov i (.inr hi)).trans (Nat.lt_succ_self n)
      · by_contra hin
        have hle := txns.lsn_lt (show n < i by omega)
        rw [← hend] at hle
        exact absurd hi (Nat.not_lt.mpr hle)

/-- Every step keeps the invariant. -/
theorem inv_step {s t : Ingest V M} {copies : List Copy} {limit : ℕ}
    (h : Inv txns onChange s copies limit) (hst : Step txns onChange sizes cfg s t) :
    ∃ copies' limit', Inv txns onChange t copies' limit' := by
  cases hst with
  | swap view => exact ⟨copies,limit,h.log,h.order,h.decodes,h.confirmed,h.connection⟩
  | @connect n hnone hn =>
    refine ⟨copies,limit,h.reconnect ?_⟩
    rintro c ⟨⟩
    refine ⟨n,.idle ?_,fun i hi => ?_⟩
    · cases n with
      | zero => exact Nat.zero_le _
      | succ n => exact h.confirmed n ((hn n).mp (Nat.lt_succ_self n))
    · exact (hn i).mpr (hi.resolve_right (Nat.not_lt_zero _))
  | receive hc hidle hsends => exact h.receive hc hidle hsends
  | land hc ha hchunk => exact h.land hc ha hchunk
  | acknowledge hc ha hchunk => exact ⟨copies,limit,h.acknowledge hc ha hchunk⟩
  | @feedback c hc =>
    obtain ⟨n,hconn,hcov⟩ := h.connection c hc
    have hmax : ∀ i, txns.lsn i < max s.confirmed c.client.applied → i < n :=
      fun i hi => hcov i (lt_max_iff.mp hi)
    refine ⟨copies,limit,h.log,h.order,h.decodes,fun i hi => (hmax i hi).trans_le hconn.le_limit,?_⟩
    intro c' hc'
    obtain rfl := Option.some.inj (hc.symm.trans hc')
    exact ⟨n,hconn,fun i hi => hi.elim (hmax i) fun hi => hcov i (.inr hi)⟩
  | drop => exact ⟨copies,limit,h.reconnect (by simp)⟩

theorem inv_of_reachable {s : Ingest V M} (h : Reachable txns onChange sizes cfg s) :
    ∃ copies limit, Inv txns onChange s copies limit := by
  obtain ⟨view,hrun⟩ := h
  induction hrun with
  | refl => exact ⟨[],0,inv_init view⟩
  | tail _ hst ih =>
    obtain ⟨copies,limit,hinv⟩ := ih
    exact inv_step hinv hst

section
variable (txns onChange sizes cfg)

/-- A run without failures. -/
abbrev Steps : Ingest V M → Ingest V M → Prop := Relation.ReflTransGen (Step txns onChange sizes cfg)

/-- A connection between transactions that has sent those before `n`. -/
def Between (s : Ingest V M) (n : ℕ) : Prop :=
  ∃ applied, s.connection = some ⟨⟨n,none⟩,⟨none,none,applied⟩⟩

end

variable (txns onChange sizes cfg) in
/-- A commit that is being appended can be appended to its end. -/
lemma exists_appended {s : Ingest V M} {n applied : ℕ} {a : Appending} (hd : a.drain.Sound)
    (hs : s.connection = some ⟨⟨n,none⟩,⟨none,some a,applied⟩⟩) :
    ∃ t, Steps txns onChange sizes cfg s t ∧ t.Between n := by
  induction hr : a.drain.rest.length using Nat.strong_induction_on generalizing s a with
  | _ k ih =>
    obtain ⟨hsound,hnext⟩ := TxnDrain.nextChunk_spec sizes hd
    rcases hnext with ⟨hnone,-⟩ | ⟨chunk,hsome,hne,hrest⟩
    · exact ⟨_,.single (.acknowledge s hs rfl (Prod.ext hnone rfl)),_,rfl⟩
    · have hlt : (a.drain.nextChunk sizes).2.rest.length < k := by
        rw [← hr,hrest,List.length_append]
        have hpos := List.length_pos_iff.mpr hne
        omega
      obtain ⟨t,hrun,ht⟩ := ih _ hlt (a := { a with drain := (a.drain.nextChunk sizes).2 })
        (s := { s with
          log := s.log ++ chunk
          connection := some ⟨⟨n,none⟩,⟨none,some { a with drain := (a.drain.nextChunk sizes).2 },
            applied⟩⟩ }) hsound rfl rfl
      exact ⟨t,.head (.land s hs rfl (Prod.ext hsome rfl)) hrun,ht⟩

variable (txns onChange sizes cfg) in
/-- A transaction of which the messages are coming can be received and appended. -/
lemma exists_received {s : Ingest V M} {n applied : ℕ} {ms : List M} {t : TxnBuffer}
    (hs : s.connection = some ⟨⟨n,some ms⟩,⟨some t,none,applied⟩⟩) :
    ∃ t, Steps txns onChange sizes cfg s t ∧ t.Between (n+1) := by
  induction ms generalizing s t with
  | nil =>
    obtain ⟨u,hrun,hu⟩ := exists_appended txns onChange sizes cfg
      (TxnDrain.sound_drain cfg t ⟨(txns.txn n).lsnText,toString t.xid⟩)
      (s := { s with connection := some ⟨⟨n+1,none⟩,⟨none,some ⟨t.drain cfg ⟨(txns.txn n).lsnText,toString
        t.xid⟩,(txns.txn n).lsnText,(txns.txn n).endLsn,t.sync⟩,applied⟩⟩ }) rfl
    exact ⟨u,.head (.receive s hs rfl (.commit n)) hrun,hu⟩
  | cons m ms ih =>
    obtain ⟨t',ht'⟩ : ∃ t', (⟨some t,none,applied⟩ : ReplicationClient).onEvent sizes cfg
        (onChange s.view) (.xLogData m) = ⟨some t',none,applied⟩ := by
      simp only [ReplicationClient.onEvent]
      cases onChange s.view m <;> exact ⟨_,rfl⟩
    obtain ⟨u,hrun,hu⟩ := ih (t := t') (s := { s with
      connection := some ⟨⟨n,some ms⟩,⟨some t',none,applied⟩⟩ }) rfl
    refine ⟨u,.head ?_ hrun,hu⟩
    rw [← ht']
    exact .receive s hs rfl (.xLogData n m ms)

variable (txns onChange sizes cfg) in
/-- A connection can send one more transaction. -/
lemma exists_next {s : Ingest V M} {n : ℕ} (h : s.Between n) :
    ∃ t, Steps txns onChange sizes cfg s t ∧ t.Between (n+1) := by
  obtain ⟨applied,hs⟩ := h
  obtain ⟨u,hrun,hu⟩ := exists_received txns onChange sizes cfg
    (n := n) (t := .new (txns.txn n).xid) (s := { s with
      connection := some ⟨⟨n,some (txns.txn n).messages⟩,⟨some (.new (txns.txn n).xid),none,applied⟩⟩ })
    rfl
  exact ⟨u,.head (.receive s hs rfl (.begin_ n)) hrun,hu⟩

/-- The server knows where to begin. -/
lemma exists_begin (txns : SourceTxns M) (confirmed : ℕ) : ∃ n, ∀ i, i < n ↔ txns.lsn i < confirmed := by
  have hex : ∃ n, confirmed ≤ txns.lsn n := ⟨confirmed,txns.le_lsn confirmed⟩
  refine ⟨Nat.find hex,fun i => ⟨fun hi => Nat.not_le.mp (Nat.find_min hex hi),fun hi => ?_⟩⟩
  by_contra hle
  have hmono : txns.lsn (Nat.find hex) ≤ txns.lsn i := by
    rcases Nat.lt_or_eq_of_le (Nat.not_lt.mp hle) with hlt | heq
    · exact (txns.lsn_strictMono hlt).le
    · rw [heq]
  exact absurd ((Nat.find_spec hex).trans hmono) (Nat.not_le.mpr hi)

variable (txns onChange sizes cfg) in
/-- Whatever happened, a new connection can send all transactions before `n`. -/
lemma exists_between (s : Ingest V M) (n : ℕ) :
    ∃ t m, n ≤ m ∧ Steps txns onChange sizes cfg s t ∧ t.Between m := by
  induction n with
  | zero =>
    obtain ⟨k,hk⟩ := exists_begin txns s.confirmed
    exact ⟨_,k,Nat.zero_le _,.head (.drop s) (.single (.connect _ rfl hk)),0,rfl⟩
  | succ n ih =>
    obtain ⟨t,m,hm,hrun,ht⟩ := ih
    obtain ⟨u,hrun',hu⟩ := exists_next txns onChange sizes cfg ht
    exact ⟨u,m+1,Nat.succ_le_succ hm,hrun.trans hrun',hu⟩

variable (txns) in
/-- The slot or the connection acknowledges a transaction. -/
def Acknowledged (s : Ingest V M) (i : ℕ) : Prop :=
  txns.lsn i < s.confirmed ∨ ∃ c ∈ s.connection, txns.lsn i < c.client.applied

lemma Inv.stored {s : Ingest V M} {copies : List Copy} {limit : ℕ} (h : Inv txns onChange s copies limit)
    {i : ℕ} (hi : i < limit) : txns.Stored onChange s.log i := by
  obtain ⟨c,hc,rfl,hcomplete⟩ := h.order.complete hi
  rw [h.log]
  exact SourceTxns.stored_of_complete hc hcomplete (h.decodes c hc).1

/-- What is sent twice decodes to the same, message by message, where the view does not matter. -/
lemma decodeAll_congr {sent sent' : List (V × M)} (hsent : sent.map Prod.snd = sent'.map Prod.snd)
    (hsame : ∀ m ∈ sent.map Prod.snd, ∀ v v', onChange v m = onChange v' m) :
    SourceTxns.decodeAll onChange sent = SourceTxns.decodeAll onChange sent' := by
  induction sent generalizing sent' with
  | nil =>
    rw [List.map_nil,eq_comm,List.map_eq_nil_iff] at hsent
    rw [hsent]
  | cons p sent ih =>
    cases sent' with
    | nil => cases hsent
    | cons p' sent' =>
      rw [List.map_cons,List.map_cons,List.cons.injEq] at hsent
      obtain ⟨hm,hsent⟩ := hsent
      have hhead : onChange p.1 p.2 = onChange p'.1 p'.2 := by
        rw [← hm]
        exact hsame p.2 (by simp) _ _
      have htail := ih hsent fun m hm => hsame m (by simp only [List.map_cons]; exact .tail _ hm)
      simp only [SourceTxns.decodeAll,List.filterMap_cons,hhead] at htail ⊢
      rw [htail]

lemma decodes_unique {i : ℕ} {xs ys : List Envelope} (hx : txns.Decodes onChange i xs)
    (hy : txns.Decodes onChange i ys)
    (hsame : ∀ m ∈ (txns.txn i).messages, ∀ v v', onChange v m = onChange v' m) : xs = ys := by
  obtain ⟨sent,hsent,rfl⟩ := hx
  obtain ⟨sent',hsent',rfl⟩ := hy
  refine decodeAll_congr (hsent.trans hsent'.symm) ?_
  rw [hsent]
  exact hsame

/-- What is acknowledged is stored; the log is copies of transactions, complete or not, in commit order
apart from re-deliveries; and however often it failed, the ingestor can store every transaction. An
incomplete copy is the front of a complete one where the decoder makes the same of the messages. -/
theorem ingestion {s : Ingest V M} (h : Reachable txns onChange sizes cfg s) :
    (∀ i, s.Acknowledged txns i → txns.Stored onChange s.log i) ∧
    (∃ copies limit, s.log = copies.flatMap txns.written ∧ InOrder copies limit ∧
      (∀ c ∈ copies, txns.Decodes onChange c.commit c.changes ∧ c.count ≤ c.changes.length) ∧
      ∀ c ∈ copies, ∀ c' ∈ copies, c.commit = c'.commit →
        (∀ m ∈ (txns.txn c.commit).messages, ∀ v v', onChange v m = onChange v' m) →
        txns.written c <+: txns.envelopes c'.commit c'.changes) ∧
    ∀ n, ∃ t, Relation.ReflTransGen (Step txns onChange sizes cfg) s t ∧
      ∀ i < n, txns.Stored onChange t.log i := by
  obtain ⟨copies,limit,hinv⟩ := inv_of_reachable h
  refine ⟨fun i hi => hinv.stored ?_,⟨copies,limit,hinv.log,hinv.order,hinv.decodes,?_⟩,fun n => ?_⟩
  · rcases hi with hi | ⟨c,hc,hi⟩
    · exact hinv.confirmed i hi
    · obtain ⟨k,hconn,hcov⟩ := hinv.connection c hc
      exact (hcov i (.inr hi)).trans_le hconn.le_limit
  · intro c hc c' hc' hcommit hsame
    have heq := decodes_unique (hinv.decodes c hc).1 (hcommit ▸ (hinv.decodes c' hc').1) hsame
    rw [← hcommit,← heq]
    exact List.take_prefix _ _
  · obtain ⟨t,m,hm,hrun,applied,ht⟩ := exists_between txns onChange sizes cfg s n
    obtain ⟨view,hs⟩ := h
    obtain ⟨copies',limit',hinv'⟩ := inv_of_reachable ⟨view,hs.trans hrun⟩
    refine ⟨t,hrun,fun i hi => hinv'.stored ?_⟩
    obtain ⟨k,hconn,-⟩ := hinv'.connection _ ht
    have hle := hconn.le_limit
    cases hconn
    omega

variable (txns onChange) in
/-- The log as copies of one list of changes for each transaction. -/
def OneList (log : List Envelope) : Prop :=
  ∃ changes : ℕ → List Envelope, (∀ i, txns.Decodes onChange i (changes i)) ∧
    ∃ ds : List Delivery, log = ds.flatMap fun d => (txns.envelopes d.commit (changes d.commit)).take d.count

/-- One transaction with an authority marker and a change. -/
def sampleTxns : SourceTxns ℕ where
  txn
    | 0 => ⟨700,16,"0/10",24,[0,1]⟩
    | i+1 => ⟨701+i,32+16*i,"",40+16*i,[]⟩
  ends
    | 0 => by decide
    | i+1 => by simp
  follows
    | 0 => by decide
    | i+1 => by dsimp only; omega

/-- A row of the marker table. -/
structure AuthorityMarker where
  sourceCommitId : String
  userId : String
  generation : String

/-- A marker with the incarnation of the runtime that its connection was admitted with. -/
structure RuntimeFence where
  marker : AuthorityMarker
  incarnation : String

/-- The envelope of a marker, still without its transaction. -/
def RuntimeFence.intoEnvelope (fence : RuntimeFence) : Change where
  type_ := "__circuits.runtime_authority_fence"
  key := fence.marker.sourceCommitId
  value := some (.object [("generation",.string fence.marker.generation),
    ("incarnation",.string fence.incarnation),("sourceCommitId",.string fence.marker.sourceCommitId),
    ("userId",.string fence.marker.userId)])
  old := none
  operation := "runtime_authority_fence"

def sampleMarker : AuthorityMarker where
  sourceCommitId := "018f5f4d-70c2-7d70-a4d5-5f7355078f85"
  userId := "018f5f4d-70c2-7d70-a4d5-5f7355078f81"
  generation := String.ofList (List.replicate 64 'a')

def sampleInsert : Change := ⟨"public.t","1",some (.object [("id",.int 1)]),none,"insert"⟩

/-- The marker is stamped with the incarnation of the connection, the row is the same each time. -/
def sampleDecode (incarnation : String) (m : ℕ) : Decoded :=
  if m = 0 then .env (RuntimeFence.intoEnvelope ⟨sampleMarker,incarnation⟩)
  else .env sampleInsert

def sampleSizes : EnvelopeSizes := ⟨fun _ => 0,fun _ => 0⟩

def sampleConfig : TxnBufferConfig := ⟨0,100⟩

def sampleFence (incarnation : String) : Envelope :=
  { (RuntimeFence.intoEnvelope ⟨sampleMarker,incarnation⟩).envelope with
    headers := ⟨"runtime_authority_fence",some "700",some "0/10",some 0,none⟩ }

def sampleRow : Envelope :=
  { sampleInsert.envelope with headers := ⟨"insert",some "700",some "0/10",some 1,some true⟩ }

def sampleIncarnations : String × String :=
  ("6f1c3c52-9a70-4a0e-8f14-0d6a5a1f7b11","b1f0e0a4-52d5-4f5c-9c1b-7f3f0a9c2d22")

/-- Two connections with an incarnation each, the first of which ended after the first chunk. -/
def sampleIngest : Ingest String ℕ where
  view := sampleIncarnations.2
  confirmed := 0
  connection := some ⟨⟨1,none⟩,⟨none,none,24⟩⟩
  log := [sampleFence sampleIncarnations.1,sampleFence sampleIncarnations.2,sampleRow]
  lastLsn := "0/10"
  syncSeq := 0

lemma sample_reachable :
    Reachable sampleTxns sampleDecode sampleSizes sampleConfig sampleIngest := by
  refine ⟨sampleIncarnations.1,?_⟩
  have hbegin : ∀ i, i < 0 ↔ sampleTxns.lsn i < 0 := by simp
  refine .head (.connect _ rfl hbegin) (.head (.receive _ rfl rfl (.begin_ 0)) ?_)
  refine .head (.receive _ rfl rfl (.xLogData 0 0 [1])) (.head (.receive _ rfl rfl (.xLogData 0 1 [])) ?_)
  refine .head (.receive _ rfl rfl (.commit 0)) (.head (.land _ rfl rfl rfl) ?_)
  refine .head (.drop _) (.head (.swap _ sampleIncarnations.2) ?_)
  refine .head (.connect _ rfl hbegin) (.head (.receive _ rfl rfl (.begin_ 0)) ?_)
  refine .head (.receive _ rfl rfl (.xLogData 0 0 [1])) (.head (.receive _ rfl rfl (.xLogData 0 1 [])) ?_)
  refine .head (.receive _ rfl rfl (.commit 0)) (.head (.land _ rfl rfl rfl) ?_)
  refine .head (.land _ rfl rfl rfl) (.head (.acknowledge _ rfl rfl rfl) ?_)
  exact .refl

/-- The first change that is stored of the transaction is not the front of what is stored later. -/
theorem sample_two_lists :
    Reachable sampleTxns sampleDecode sampleSizes sampleConfig sampleIngest ∧
    ¬OneList sampleTxns sampleDecode sampleIngest.log := by
  refine ⟨sample_reachable,?_⟩
  rintro ⟨changes,hchanges,ds,hlog⟩
  have hnone : ∀ i, changes (i+1) = [] := by
    intro i
    obtain ⟨sent,hsent,heq⟩ := hchanges (i+1)
    have hnil : sent = [] := by simpa [sampleTxns] using hsent
    rw [heq,hnil]
    rfl
  have hfirst : ∀ e ∈ sampleIngest.log, e.headers.seq = some 0 →
      ∃ x, (changes 0)[0]? = some x ∧ e.value = x.value := by
    intro e he hseq
    rw [hlog] at he
    obtain ⟨d,-,hd⟩ := List.mem_flatMap.mp he
    obtain ⟨seq,-,x,hx,rfl⟩ := Commit.mem_take_envelopes.mp hd
    obtain rfl : seq = 0 := Option.some.inj hseq
    cases hcommit : d.commit with
    | zero =>
      rw [hcommit] at hx
      exact ⟨x,hx,rfl⟩
    | succ i =>
      rw [hcommit] at hx
      simp [hnone] at hx
  obtain ⟨x,hx,hA⟩ := hfirst (sampleFence sampleIncarnations.1) (.head _) rfl
  obtain ⟨y,hy,hB⟩ := hfirst (sampleFence sampleIncarnations.2) (.tail _ (.head _)) rfl
  obtain rfl := Option.some.inj (hx.symm.trans hy)
  simpa [sampleFence,RuntimeFence.intoEnvelope,Change.envelope,sampleIncarnations] using hA.trans hB.symm

/-- The transaction is acknowledged, and stored in full behind the interrupted copy. -/
theorem sample_ingestion :
    sampleIngest.Acknowledged sampleTxns 0 ∧
    sampleTxns.Stored sampleDecode sampleIngest.log 0 := by
  have hack : sampleIngest.Acknowledged sampleTxns 0 := .inr ⟨_,rfl,by decide⟩
  exact ⟨hack,(ingestion sample_reachable).1 0 hack⟩

end Ingest
end
end ElectricCircuits
