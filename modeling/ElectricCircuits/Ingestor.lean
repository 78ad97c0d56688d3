import ElectricCircuits.Envelope
import ElectricCircuits.Lib.Replay
import Mathlib.Data.List.Flatten

/-! The change logs that the ingestor can write. A commit is appended whole or, when the append is
interrupted, as a prefix; Postgres then sends it again from its start, possibly behind earlier
commits that were already complete. -/
namespace ElectricCircuits
open Replay

lemma Envelope.seq_of_position {e : Envelope} {p : ℕ ×ₗ ℕ} (h : e.position = some p) :
    e.headers.seq = some (ofLex p).2 := by
  rw [Envelope.position] at h
  split at h
  · rename_i hseq
    rw [hseq,← Option.some.inj h]
    rfl
  · cases h

/-- What the sequencer relies on in a change log: stamps that identify transaction and place, an end
marker on the last change of each, and a log that never runs past a position of `Z` that it has not
had. -/
structure Source (L : List Envelope) (Z : Set (ℕ ×ₗ ℕ)) : Prop where
  stamped : ∀ e ∈ L, ∃ p, e.position = some p
  runKey_iff : ∀ e ∈ L, ∀ e' ∈ L, ∀ p ∈ e.position, ∀ p' ∈ e'.position,
    e.runKey = e'.runKey ↔ (ofLex p).1 = (ofLex p').1
  marked : ∀ e ∈ L, ∀ e' ∈ L, e.runKey = e'.runKey → e.headers.last = some true →
    e'.headers.last ≠ some true → ∀ p ∈ e.position, ∀ p' ∈ e'.position, p' < p
  begins : Ahead Envelope.position Z none L

/-- Behind an interrupted transaction the log has its positions of `Z` again. -/
def Resends (L : List Envelope) (Z : Set (ℕ ×ₗ ℕ)) : Prop :=
  ∀ A B, L = A ++ B → ∀ a ∈ A.getLast?, a.headers.last ≠ some true →
    (∀ b ∈ B.head?, b.runKey ≠ a.runKey) → ∀ z ∈ Z, ∀ p ∈ a.position, (ofLex z).1 = (ofLex p).1 →
      Ahead Envelope.position {z} none B

structure Commit where
  txid : String
  lsn : String
  changes : List Envelope

namespace Commit

def size (c : Commit) : ℕ := c.changes.length

/-- The stamps of the drain: the running index, and the end marker on the last change only. -/
def stamp (c : Commit) (seq : ℕ) (e : Envelope) : Envelope :=
  { e with
    headers :=
      { e.headers with
        txid := some c.txid
        lsn := some c.lsn
        seq := some seq
        last := if seq+1 = c.size then some true else none } }

def envelopes (c : Commit) : List Envelope := c.changes.mapIdx c.stamp

/-- The position of a change of this commit. -/
def at_ (c : Commit) (seq : ℕ) : ℕ ×ₗ ℕ := toLex (lsnToU64 c.lsn,seq)

@[simp] lemma length_envelopes (c : Commit) : c.envelopes.length = c.size := by simp [envelopes,size]

@[simp] lemma position_stamp (c : Commit) (seq : ℕ) (e : Envelope) :
    (c.stamp seq e).position = some (c.at_ seq) := rfl

@[simp] lemma runKey_stamp (c : Commit) (seq : ℕ) (e : Envelope) :
    (c.stamp seq e).runKey = (some c.txid,some c.lsn) := rfl

/-- The change at one index. -/
lemma mem_take_envelopes {c : Commit} {n : ℕ} {e : Envelope} :
    e ∈ c.envelopes.take n ↔ ∃ seq, seq < n ∧ ∃ x, c.changes[seq]? = some x ∧ e = c.stamp seq x := by
  simp only [List.mem_take_iff_getElem,envelopes,List.getElem_mapIdx,List.length_mapIdx]
  constructor
  · rintro ⟨i,hi,rfl⟩
    exact ⟨i,by omega,_,List.getElem?_eq_getElem (by omega),rfl⟩
  · rintro ⟨i,hi,x,hx,rfl⟩
    obtain ⟨hlt,rfl⟩ := List.getElem?_eq_some_iff.mp hx
    exact ⟨i,by omega,rfl⟩

end Commit

/-- The transactions of the source in commit order; one without changes writes nothing. -/
structure Commits where
  commit : ℕ → Commit
  increasing : ∀ i j, i < j → 0 < (commit i).size → 0 < (commit j).size →
    lsnToU64 (commit i).lsn < lsnToU64 (commit j).lsn

namespace Commits
variable (cs : Commits)

/-- The position of the change `seq` of commit `i`. -/
def at_ (i seq : ℕ) : ℕ ×ₗ ℕ := (cs.commit i).at_ seq

lemma lsn_inj {i j : ℕ} (hi : 0 < (cs.commit i).size) (hj : 0 < (cs.commit j).size)
    (h : lsnToU64 (cs.commit i).lsn = lsnToU64 (cs.commit j).lsn) : i = j := by
  rcases lt_trichotomy i j with hij | hij | hij
  · exact absurd h (cs.increasing i j hij hi hj).ne
  · exact hij
  · exact absurd h (cs.increasing j i hij hj hi).ne'

lemma at_lt_of_commit {i j : ℕ} (s t : ℕ) (hij : i < j) (hi : 0 < (cs.commit i).size)
    (hj : 0 < (cs.commit j).size) : cs.at_ i s < cs.at_ j t :=
  Prod.Lex.toLex_lt_toLex.mpr (.inl (cs.increasing i j hij hi hj))

lemma at_lt_of_seq (i : ℕ) {s t : ℕ} (h : s < t) : cs.at_ i s < cs.at_ i t :=
  Prod.Lex.toLex_lt_toLex.mpr (.inr ⟨rfl,h⟩)

end Commits

/-- One append of the ingestor: the first `count` changes of a commit. -/
structure Delivery where
  commit : ℕ
  count : ℕ
  deriving DecidableEq

namespace Commits
variable (cs : Commits)

def Complete (d : Delivery) : Prop := d.count = (cs.commit d.commit).size

instance (d : Delivery) : Decidable (cs.Complete d) := inferInstanceAs (Decidable (_ = _))

def written (d : Delivery) : List Envelope := (cs.commit d.commit).envelopes.take d.count

/-- The log that a sequence of deliveries leaves. -/
def log (ds : List Delivery) : List Envelope := ds.flatMap cs.written

/-- The deliveries that the ingestor can make next: Postgres sends from `floor` or later, never
beyond `limit`, the commit after the last one written in full; `top` commits were ever sent. An
epoch reset goes on with a later commit and never comes back. -/
inductive Produces : ℕ → ℕ → ℕ → List Delivery → Prop where
  | nil (floor limit top : ℕ) : Produces floor limit top []
  | deliver {floor limit top : ℕ} {d : Delivery} {ds : List Delivery}
    (hfloor : floor ≤ d.commit) (hlimit : d.commit ≤ limit) (hpos : 0 < d.count)
    (hsize : d.count ≤ (cs.commit d.commit).size)
    (rest : Produces floor (if cs.Complete d then d.commit+1 else d.commit) (max top (d.commit+1)) ds) :
    Produces floor limit top (d :: ds)
  | reset {floor limit top first : ℕ} {ds : List Delivery} (hfirst : top ≤ first)
    (rest : Produces first first first ds) : Produces floor limit top ds

/-- An interrupted delivery of a commit that is complete before is followed by a complete one. -/
def Resent (ds : List Delivery) : Prop :=
  ∀ A d B, ds = A ++ d :: B → ¬cs.Complete d →
    (∃ c ∈ A, c.commit = d.commit ∧ cs.Complete c) → ∃ c ∈ B, c.commit = d.commit ∧ cs.Complete c

/-- The positions of the commits that the log has in full. -/
def appended (ds : List Delivery) : Set (ℕ ×ₗ ℕ) :=
  { z | ∃ d ∈ ds, cs.Complete d ∧ ∃ seq < d.count, z = cs.at_ d.commit seq }

section
variable {cs} {ds : List Delivery} {d : Delivery} {e : Envelope}

@[simp] lemma log_nil : cs.log [] = [] := rfl
@[simp] lemma log_cons : cs.log (d :: ds) = cs.written d ++ cs.log ds := rfl
@[simp] lemma log_append (ds' : List Delivery) : cs.log (ds ++ ds') = cs.log ds ++ cs.log ds' :=
  List.flatMap_append

lemma mem_written : e ∈ cs.written d ↔ ∃ seq, seq < d.count ∧
    ∃ x, (cs.commit d.commit).changes[seq]? = some x ∧ e = (cs.commit d.commit).stamp seq x :=
  Commit.mem_take_envelopes

lemma position_of_mem_written (h : e ∈ cs.written d) :
    ∃ seq < d.count, e.position = some (cs.at_ d.commit seq) := by
  obtain ⟨seq,hseq,x,-,rfl⟩ := mem_written.mp h
  exact ⟨seq,hseq,rfl⟩

lemma runKey_of_mem_written (h : e ∈ cs.written d) :
    e.runKey = (some (cs.commit d.commit).txid,some (cs.commit d.commit).lsn) := by
  obtain ⟨seq,-,x,-,rfl⟩ := mem_written.mp h
  rfl

/-- A delivery up to one of its changes. -/
lemma written_split {seq : ℕ} (hseq : seq < d.count) (hsize : d.count ≤ (cs.commit d.commit).size) :
    ∃ B e C, cs.written d = B ++ e :: C ∧ e.position = some (cs.at_ d.commit seq) ∧
      ∀ b ∈ B, ∀ p ∈ b.position, p ≤ cs.at_ d.commit seq := by
  have hlt : seq < (cs.written d).length := by
    simp only [written,List.length_take,Commit.length_envelopes]
    omega
  refine ⟨(cs.written d).take seq,(cs.written d)[seq],(cs.written d).drop (seq+1),?_,?_,?_⟩
  · rw [List.getElem_cons_drop,List.take_append_drop]
  · simp [written,Commit.envelopes,at_]
  · intro b hb p hp
    have hb' : b ∈ (cs.commit d.commit).envelopes.take seq := by
      rw [written,List.take_take,min_eq_left hseq.le] at hb
      exact hb
    obtain ⟨t,ht,x,-,rfl⟩ := Commit.mem_take_envelopes.mp hb'
    obtain rfl := Option.some.inj hp
    exact (cs.at_lt_of_seq d.commit ht).le

lemma floor_le {floor limit top : ℕ} (h : cs.Produces floor limit top ds) (hft : floor ≤ top) :
    ∀ d ∈ ds, floor ≤ d.commit := by
  induction h with
  | nil => simp
  | deliver hfloor _ _ _ _ ih =>
    exact List.forall_mem_cons.mpr ⟨hfloor,ih (hft.trans (le_max_left _ _))⟩
  | reset hfirst _ ih => exact fun d hd => (hft.trans hfirst).trans (ih le_rfl d hd)

/-- Behind a limit, every change of a commit that comes in full comes with nothing higher before
it. -/
theorem ahead_of_limit {floor limit top i seq : ℕ} (h : cs.Produces floor limit top ds)
    (hi : limit ≤ i) (hc : ∃ c ∈ ds, c.commit = i ∧ cs.Complete c) (hseq : seq < (cs.commit i).size) :
    ∃ B e C, cs.log ds = B ++ e :: C ∧ e.position = some (cs.at_ i seq) ∧
      ∀ b ∈ B, ∀ p ∈ b.position, p ≤ cs.at_ i seq := by
  induction h with
  | nil => simp at hc
  | @deliver floor limit top d ds hfloor hlimit hpos hsize _ ih =>
    -- what the delivery adds in front stays below the change, when it does not have it
    have hfront (hlim : (if cs.Complete d then d.commit+1 else d.commit) ≤ i)
        (hds : ∃ c ∈ ds, c.commit = i ∧ cs.Complete c)
        (hlow : ∀ s < d.count, cs.at_ d.commit s ≤ cs.at_ i seq) :
        ∃ B e C, cs.log (d :: ds) = B ++ e :: C ∧ e.position = some (cs.at_ i seq) ∧
          ∀ b ∈ B, ∀ p ∈ b.position, p ≤ cs.at_ i seq := by
      obtain ⟨B,e,C,hlog,he,hB⟩ := ih hlim hds
      refine ⟨cs.written d ++ B,e,C,by simp [hlog],he,?_⟩
      intro b hb p hp
      rcases List.mem_append.mp hb with hb | hb
      · obtain ⟨s,hs,hpos⟩ := position_of_mem_written hb
        obtain rfl := Option.some.inj (hpos.symm.trans hp)
        exact hlow s hs
      · exact hB b hb p hp
    obtain ⟨c,hcd,hci,hcc⟩ := hc
    rcases (hlimit.trans hi).lt_or_eq with hlt | heq
    · have hcds : c ∈ ds := (List.mem_cons.mp hcd).resolve_left (by rintro rfl; omega)
      exact hfront (by split <;> omega) ⟨c,hcds,hci,hcc⟩
        fun s _ => (cs.at_lt_of_commit s seq hlt (hpos.trans_le hsize) (Nat.zero_lt_of_lt hseq)).le
    · by_cases hs : seq < d.count
      · obtain ⟨B,e,C,hw,he,hB⟩ := written_split hs hsize
        subst heq
        exact ⟨B,e,C ++ cs.log ds,by simp [hw],he,hB⟩
      · subst heq
        have hd : ¬cs.Complete d := fun hd => hs (hd ▸ hseq)
        have hcds : c ∈ ds := (List.mem_cons.mp hcd).resolve_left (by rintro rfl; exact hd hcc)
        exact hfront (by simp [hd]) ⟨c,hcds,hci,hcc⟩
          fun s hsc => (cs.at_lt_of_seq _ (by omega)).le
  | @reset floor limit top first ds hfirst hrest ih =>
    obtain ⟨c,hcd,hci,hcc⟩ := hc
    have hfi : first ≤ i := hci ▸ floor_le hrest le_rfl c hcd
    exact ih hfi ⟨c,hcd,hci,hcc⟩

/-- What can follow a delivery. -/
lemma Produces.after {floor limit top : ℕ} {A B : List Delivery}
    (h : cs.Produces floor limit top (A ++ d :: B)) :
    ∃ floor' top', cs.Produces floor' (if cs.Complete d then d.commit+1 else d.commit) top' B := by
  generalize hds : A ++ d :: B = ds at h
  induction h generalizing A with
  | nil => simp at hds
  | @deliver floor limit top d' ds _ _ _ _ hrest ih =>
    cases A with
    | nil =>
      obtain ⟨rfl,rfl⟩ := List.cons.inj hds
      exact ⟨_,_,hrest⟩
    | cons a A =>
      obtain ⟨rfl,rfl⟩ := List.cons.inj hds
      exact ih rfl
  | reset _ _ ih => exact ih hds

/-- Where a log is cut behind an unmarked envelope that the next one does not continue, the cut falls
between two deliveries. -/
lemma cut_at_delivery {A B : List Envelope} (h : cs.log ds = A ++ B) {a : Envelope}
    (ha : a ∈ A.getLast?) (hB : ∀ b ∈ B.head?, b.runKey ≠ a.runKey) :
    ∃ ds₁ d ds₂, ds = ds₁ ++ d :: ds₂ ∧ a ∈ (cs.written d).getLast? ∧ B = cs.log ds₂ ∧
      A = cs.log ds₁ ++ cs.written d := by
  induction ds generalizing A with
  | nil =>
    obtain ⟨rfl,rfl⟩ := List.append_eq_nil_iff.mp h.symm
    simp at ha
  | cons d ds ih =>
    rw [log_cons] at h
    rcases List.append_eq_append_iff.mp h with ⟨A',hA,hds⟩ | ⟨C,hd,hC⟩
    · by_cases hA' : A' = []
      · subst hA'
        rw [List.append_nil] at hA
        subst hA
        exact ⟨[],d,ds,rfl,ha,by simpa using hds.symm,by simp⟩
      · have ha' : a ∈ A'.getLast? := by
          rwa [hA,List.getLast?_append_of_ne_nil _ hA'] at ha
        obtain ⟨ds₁,d',ds₂,rfl,had,hB',rfl⟩ := ih hds ha'
        exact ⟨d :: ds₁,d',ds₂,rfl,had,hB',by rw [hA,log_cons,List.append_assoc]⟩
    · cases C with
      | nil =>
        rw [List.append_nil] at hd
        subst hd
        exact ⟨[],d,ds,rfl,ha,by simpa using hC,by simp⟩
      | cons b C =>
        have had : a ∈ cs.written d := by
          rw [hd]
          exact List.mem_append_left _ (List.mem_of_getLast? ha)
        have hbd : b ∈ cs.written d := by simp [hd]
        have hbB : b ∈ B.head? := by simp [hC]
        exact absurd ((runKey_of_mem_written hbd).trans (runKey_of_mem_written had).symm) (hB b hbB)

lemma mem_log : e ∈ cs.log ds ↔ ∃ d ∈ ds, e ∈ cs.written d := List.mem_flatMap

/-- Position, transaction and end marker of an envelope of the log. -/
lemma stamps_of_mem_log (h : e ∈ cs.log ds) : ∃ i seq, seq < (cs.commit i).size ∧
    e.position = some (cs.at_ i seq) ∧ e.runKey = (some (cs.commit i).txid,some (cs.commit i).lsn) ∧
    (e.headers.last = some true ↔ seq+1 = (cs.commit i).size) := by
  obtain ⟨d,-,he⟩ := mem_log.mp h
  obtain ⟨seq,-,x,hx,rfl⟩ := mem_written.mp he
  have hlt : seq < (cs.commit d.commit).size := (List.getElem?_eq_some_iff.mp hx).1
  refine ⟨d.commit,seq,hlt,rfl,rfl,?_⟩
  simp [Commit.stamp]

/-- The last envelope of a complete delivery has the end marker. -/
lemma marked_of_complete (h : cs.Complete d) {a : Envelope} (ha : a ∈ (cs.written d).getLast?) :
    a.headers.last = some true := by
  rw [written,h,← Commit.length_envelopes,List.take_length,Commit.envelopes,
    List.getLast?_eq_getElem?] at ha
  obtain ⟨hlt,rfl⟩ := List.getElem?_eq_some_iff.mp ha
  simp only [List.length_mapIdx,List.getElem_mapIdx,Commit.stamp] at hlt ⊢
  exact if_pos (by rw [Commit.size]; omega)

/-- The ingestor's logs are what the sequencer relies on. -/
theorem source_log (h : cs.Produces 0 0 0 ds) :
    Source (cs.log ds) (cs.appended ds) where
  stamped := by
    intro e he
    obtain ⟨i,seq,-,hp,-⟩ := stamps_of_mem_log he
    exact ⟨_,hp⟩
  runKey_iff := by
    intro e he e' he' p hp p' hp'
    obtain ⟨i,seq,hlt,hpos,hkey,-⟩ := stamps_of_mem_log he
    obtain ⟨i',seq',hlt',hpos',hkey',-⟩ := stamps_of_mem_log he'
    have hi := Nat.zero_lt_of_lt hlt
    have hi' := Nat.zero_lt_of_lt hlt'
    obtain rfl := Option.some.inj (hpos.symm.trans hp)
    obtain rfl := Option.some.inj (hpos'.symm.trans hp')
    rw [hkey,hkey']
    simp only [Prod.mk.injEq,Option.some.injEq]
    constructor
    · rintro ⟨-,hlsn⟩
      obtain rfl := cs.lsn_inj hi hi' (congrArg lsnToU64 hlsn)
      rfl
    · intro hlsn
      obtain rfl := cs.lsn_inj hi hi' hlsn
      exact ⟨rfl,rfl⟩
  marked := by
    intro e he e' he' hk hm hm' p hp p' hp'
    obtain ⟨i,seq,hlt,hpos,hkey,hlast⟩ := stamps_of_mem_log he
    obtain ⟨i',seq',hlt',hpos',hkey',hlast'⟩ := stamps_of_mem_log he'
    obtain rfl := Option.some.inj (hpos.symm.trans hp)
    obtain rfl := Option.some.inj (hpos'.symm.trans hp')
    rw [hkey,hkey'] at hk
    obtain rfl := cs.lsn_inj (Nat.zero_lt_of_lt hlt) (Nat.zero_lt_of_lt hlt')
      (congrArg lsnToU64 (Option.some.inj (Prod.ext_iff.mp hk).2))
    have hs := hlast.mp hm
    have hs' := mt hlast'.mpr hm'
    exact cs.at_lt_of_seq i (by omega)
  begins := by
    rintro z ⟨d,hd,hc,seq,hseq,rfl⟩ -
    exact ahead_of_limit h (Nat.zero_le _) ⟨d,hd,rfl,hc⟩ (hc ▸ hseq)

/-- Where an unmarked envelope is not continued, a commit of which a complete delivery comes later is
sent again from its start. -/
lemma sent_again (h : cs.Produces 0 0 0 ds) {A B : List Envelope} (hAB : cs.log ds = A ++ B)
    {a : Envelope} (ha : a ∈ A.getLast?) (hm : a.headers.last ≠ some true)
    (hB : ∀ b ∈ B.head?, b.runKey ≠ a.runKey) {c : Delivery} (hc : c ∈ ds) (hcc : cs.Complete c)
    {p : ℕ ×ₗ ℕ} (hp : a.position = some p) {seq : ℕ} (hseq : seq < c.count)
    (hz : (ofLex (cs.at_ c.commit seq)).1 = (ofLex p).1) :
    ∃ ds₁ d ds₂, ds = ds₁ ++ d :: ds₂ ∧ ¬cs.Complete d ∧ c.commit = d.commit ∧ B = cs.log ds₂ ∧
      A = cs.log ds₁ ++ cs.written d ∧ ((∃ c' ∈ ds₂, c'.commit = d.commit ∧ cs.Complete c') →
        Ahead Envelope.position {cs.at_ c.commit seq} none B) := by
  obtain ⟨ds₁,d,ds₂,rfl,had,rfl,hA⟩ := cut_at_delivery hAB ha hB
  have hd : ¬cs.Complete d := fun hd => hm (marked_of_complete hd had)
  obtain ⟨s,-,x,hx,rfl⟩ := mem_written.mp (List.mem_of_getLast? had)
  have hlt : s < (cs.commit d.commit).size := (List.getElem?_eq_some_iff.mp hx).1
  obtain rfl := Option.some.inj hp
  have hcd : c.commit = d.commit :=
    cs.lsn_inj (Nat.zero_lt_of_lt (hcc ▸ hseq)) (Nat.zero_lt_of_lt hlt) hz
  refine ⟨ds₁,d,ds₂,rfl,hd,hcd,rfl,hA,fun hagain => ?_⟩
  rintro _ rfl -
  obtain ⟨floor,top,hafter⟩ := h.after
  rw [if_neg hd] at hafter
  rw [hcd]
  exact ahead_of_limit hafter le_rfl hagain (by rw [← hcd]; exact hcc ▸ hseq)

/-- No re-delivery of a complete commit is given up half way: then every interrupted transaction comes
again. -/
theorem resends_log (h : cs.Produces 0 0 0 ds) (hr : cs.Resent ds) :
    Resends (cs.log ds) (cs.appended ds) := by
  rintro A B hAB a ha hm hB z ⟨c,hc,hcc,seq,hseq,rfl⟩ p hp hz
  obtain ⟨ds₁,d,ds₂,rfl,hd,hcd,rfl,-,hahead⟩ := sent_again h hAB ha hm hB hc hcc hp hseq hz
  refine hahead ?_
  rcases List.mem_append.mp hc with hc | hc
  · exact hr ds₁ d ds₂ rfl hd ⟨c,hc,hcd,hcc⟩
  · rcases List.mem_cons.mp hc with rfl | hc
    · exact absurd hcc hd
    · exact ⟨c,hc,hcd,hcc⟩

end

/-- Two transactions, of one change and of two. -/
def sample : Commits where
  commit
    | 0 => ⟨"700","0/1",[⟨"t","a",none,none,⟨"insert",none,none,none,none⟩⟩]⟩
    | 1 => ⟨"701","0/2",[⟨"t","b",none,none,⟨"insert",none,none,none,none⟩⟩,
        ⟨"t","c",none,none,⟨"insert",none,none,none,none⟩⟩]⟩
    | _+2 => ⟨"702","0/3",[]⟩
  increasing
    | 0,1,_,_,_ => by decide +kernel
    | 0,0,h,_,_ => by omega
    | 1,0,h,_,_ => by omega
    | 1,1,h,_,_ => by omega
    | i+2,_,_,h,_ => by cases h
    | 0,j+2,_,_,h => by cases h
    | 1,j+2,_,_,h => by cases h

/-- The second one is interrupted, and the first one sent again before it. -/
def sampleDeliveries : List Delivery := [⟨0,1⟩,⟨1,1⟩,⟨0,1⟩,⟨1,2⟩]

lemma sample_produces : sample.Produces 0 0 0 sampleDeliveries :=
  .deliver (by decide) (by decide) (by decide) (by decide) <|
    .deliver (by decide) (by decide) (by decide) (by decide) <|
      .deliver (by decide) (by decide) (by decide) (by decide) <|
        .deliver (by decide) (by decide) (by decide) (by decide) (.nil _ _ _)

lemma sample_resent : sample.Resent sampleDeliveries := by
  rintro A d B hds hd ⟨c,hc,hcd,-⟩
  rcases A with _ | ⟨_,_ | ⟨_,A⟩⟩
  · cases hc
  · simp only [sampleDeliveries,List.cons_append,List.nil_append,List.cons.injEq] at hds
    obtain ⟨rfl,rfl,-⟩ := hds
    simp_all
  · simp only [sampleDeliveries,List.cons_append,List.cons.injEq] at hds
    have hmem : d ∈ [(⟨0,1⟩ : Delivery),⟨1,2⟩] := by
      rw [hds.2.2]
      simp
    have hcomplete : ∀ d ∈ [(⟨0,1⟩ : Delivery),⟨1,2⟩], sample.Complete d := by decide
    exact absurd (hcomplete d hmem) hd

end Commits
end ElectricCircuits
