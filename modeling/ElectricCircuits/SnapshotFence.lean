import ElectricCircuits.TableExec
import Mathlib.Data.Nat.Notation

/-! The fence of a backfill snapshot over the whole life of a shape: the snapshot's 64-bit ids are kept as
32-bit words, and every transaction that is delivered later is compared by its own low word. -/
namespace ElectricCircuits

/-- The low 32 bits of an id. -/
def low32 (v : ℕ) : ℕ := v &&& 0xFFFFFFFF

lemma low32_eq (v : ℕ) : low32 v = v % 2^32 := Nat.and_two_pow_sub_one_eq_mod v 32

/-- An id is its epoch and its low word. -/
lemma epoch_low32 (v : ℕ) : 2^32*(v/2^32)+low32 v = v := by
  rw [low32_eq]
  exact Nat.div_add_mod v (2^32)

/-- The gate of `pg_current_snapshot()::text` and the snapshot's LSN; what is unreadable counts as zero. -/
def SnapshotGate.parse (snapshot lsn : String) : SnapshotGate :=
  let parts := snapshot.toList.splitOn ':'
  let read (s : List Char) : Option ℕ := (parseUnsigned 10 (2^64) (trim s)).map low32
  { lsn := lsnToU64 lsn
    xmin := (parts[0]?.bind read).getD 0
    xmax := (parts[1]?.bind read).getD 0
    xip := (parts[2]?.map fun s => (s.splitOn ',').filterMap read).getD [] }

/-- A snapshot of Postgres: every transaction before `xmin` has ended, none from `xmax` on had begun, and
the ones between are in progress or have ended. -/
structure PgSnapshot where
  xmin : ℕ
  xmax : ℕ
  xip : List ℕ
  ordered : xmin ≤ xmax
  word : xmax < 2^64
  within : ∀ x ∈ xip, xmin ≤ x ∧ x < xmax

namespace PgSnapshot

/-- `xmin:xmax:xip1,xip2,…` -/
def text (s : PgSnapshot) : String :=
  String.ofList ([':'].intercalate
    [Nat.toDigits 10 s.xmin,Nat.toDigits 10 s.xmax,[','].intercalate (s.xip.map (Nat.toDigits 10))])

/-- The snapshot shows what the committed transaction did. -/
def Shows (s : PgSnapshot) (x : ℕ) : Prop := x < s.xmin ∨ x < s.xmax ∧ x ∉ s.xip

instance (s : PgSnapshot) (x : ℕ) : Decidable (s.Shows x) := inferInstanceAs (Decidable (_ ∨ _))

lemma digits_free {c : Char} (hc : c.isDigit = false) (n : ℕ) : c ∉ Nat.toDigits 10 n := by
  intro h
  rw [Nat.isDigit_of_mem_toDigits (by decide) (by decide) h] at hc
  contradiction

lemma parts_text (s : PgSnapshot) : s.text.toList.splitOn ':' =
    [Nat.toDigits 10 s.xmin,Nat.toDigits 10 s.xmax,[','].intercalate (s.xip.map (Nat.toDigits 10))] := by
  have hcolon : ∀ n, ':' ∉ Nat.toDigits 10 n := digits_free (by decide)
  have hlist : ∀ xs : List ℕ, ':' ∉ [','].intercalate (xs.map (Nat.toDigits 10)) := by
    intro xs
    induction xs with
    | nil => simp [List.intercalate_nil]
    | cons x xs ih =>
      cases xs with
      | nil => simpa using hcolon x
      | cons y ys => simpa [List.intercalate_cons_cons,hcolon x] using ih
  rw [text,String.toList_ofList]
  refine List.splitOn_intercalate ':' ?_ (List.cons_ne_nil _ _)
  simp [hcolon,hlist]

/-- What is read of a printed id is its low word. -/
lemma read_digits {n : ℕ} (h : n < 2^64) :
    (parseUnsigned 10 (2^64) (trim (Nat.toDigits 10 n))).map low32 = some (low32 n) := by
  rw [trim_toDigits,parseUnsigned_toDigits h,Option.map_some]

lemma read_xip {xs : List ℕ} (h : ∀ x ∈ xs, x < 2^64) :
    (([','].intercalate (xs.map (Nat.toDigits 10))).splitOn ',').filterMap
      (fun s => (parseUnsigned 10 (2^64) (trim s)).map low32) = xs.map low32 := by
  rcases eq_or_ne xs [] with rfl | hne
  · decide
  have hcomma : ∀ l ∈ xs.map (Nat.toDigits 10), ',' ∉ l := by
    intro l hl
    obtain ⟨n,-,rfl⟩ := List.mem_map.mp hl
    exact digits_free (by decide) n
  rw [List.splitOn_intercalate ',' hcomma (by simpa using hne),List.filterMap_map,
    ← List.filterMap_eq_map]
  exact List.filterMap_congr fun x hx => read_digits (h x hx)

/-- The gate keeps the low words of the snapshot's ids. -/
lemma parse_text (s : PgSnapshot) (lsn : String) :
    SnapshotGate.parse s.text lsn = ⟨lsnToU64 lsn,low32 s.xmin,low32 s.xmax,s.xip.map low32⟩ := by
  have hmin := read_digits (s.ordered.trans_lt s.word)
  have hmax := read_digits s.word
  have hxip := read_xip fun x hx => (s.within x hx).2.trans s.word
  simp only [SnapshotGate.parse,s.parts_text,List.getElem?_cons_zero,List.getElem?_cons_succ,
    Option.bind_some,Option.map_some,Option.getD_some,hmin,hmax,hxip]

/-- How the low words can mislead the gate about a committed transaction. -/
inductive Misread (s : PgSnapshot) (x : ℕ) : Prop where
  /-- The word of `xmax` is the one that stands for no snapshot at all. -/
  | blank (shown : s.Shows x) (zero : low32 s.xmax = 0)
  | shadowed (shown : s.Shows x) (low : low32 s.xmin ≤ low32 x)
    (hidden : low32 s.xmax ≤ low32 x ∨ ∃ y ∈ s.xip, low32 y = low32 x)
  | before (unseen : ¬s.Shows x) (nonzero : low32 s.xmax ≠ 0) (low : low32 x < low32 s.xmin)
  | between (unseen : ¬s.Shows x) (low : low32 x < low32 s.xmax)
    (apart : ∀ y ∈ s.xip, low32 y ≠ low32 x)

/-- The gate on the words, as a proposition. -/
lemma visible_iff (l : ℕ) (s : PgSnapshot) (x : ℕ) :
    SnapshotGate.visible ⟨l,low32 s.xmin,low32 s.xmax,s.xip.map low32⟩ (low32 x) = true ↔
      low32 s.xmax ≠ 0 ∧ (low32 x < low32 s.xmin ∨
        low32 x < low32 s.xmax ∧ ∀ y ∈ s.xip, low32 y ≠ low32 x) := by
  unfold SnapshotGate.visible
  split_ifs with hzero hmin hmax
  · simp [show low32 s.xmax = 0 from hzero]
  · simp [hzero,hmin]
  · simp [hmin,not_lt.mpr hmax]
  · simp [hzero,hmin,not_le.mp hmax]

lemma not_misread_iff (l : ℕ) (s : PgSnapshot) (x : ℕ) :
    (SnapshotGate.visible ⟨l,low32 s.xmin,low32 s.xmax,s.xip.map low32⟩ (low32 x) = true ↔ s.Shows x) ↔
      ¬s.Misread x := by
  rw [visible_iff]
  constructor
  · rintro h (⟨hs,hzero⟩ | ⟨hs,hlow,hhidden⟩ | ⟨hs,hnz,hlow⟩ | ⟨hs,hlow,hapart⟩)
    · exact (h.mpr hs).1 hzero
    · rcases (h.mpr hs).2 with hb | ⟨hb,hapart⟩
      · exact absurd hb (not_lt.mpr hlow)
      · rcases hhidden with hm | ⟨y,hy,he⟩
        · exact absurd hb (not_lt.mpr hm)
        · exact hapart y hy he
    · exact hs (h.mp ⟨hnz,.inl hlow⟩)
    · exact hs (h.mp ⟨(Nat.zero_le _).trans_lt hlow |>.ne',.inr ⟨hlow,hapart⟩⟩)
  · intro h
    constructor
    · rintro ⟨hnz,hlow | ⟨hlow,hapart⟩⟩
      · exact by_contra fun hs => h (.before hs hnz hlow)
      · exact by_contra fun hs => h (.between hs hlow hapart)
    · intro hs
      refine ⟨fun hzero => h (.blank hs hzero),?_⟩
      by_contra hhidden
      rw [not_or,not_lt] at hhidden
      refine h (.shadowed hs hhidden.1 ?_)
      by_contra hopen
      rw [not_or,not_le] at hopen
      exact hhidden.2 ⟨hopen.1,fun y hy he => hopen.2 ⟨y,hy,he⟩⟩

/-- Nothing is misread while the snapshot and the transaction lie between two wraps of the low word. -/
theorem not_misread_of_epoch {s : PgSnapshot} {x : ℕ} (hmin : s.xmin/2^32 = x/2^32)
    (hmax : s.xmax/2^32 = x/2^32) : ¬s.Misread x := by
  have hlow : ∀ y, y/2^32 = x/2^32 → ∀ z, z/2^32 = x/2^32 → (low32 y < low32 z ↔ y < z) := by
    intro y hy z hz
    have hy' := epoch_low32 y
    have hz' := epoch_low32 z
    rw [hy] at hy'
    rw [hz] at hz'
    omega
  have hxip : ∀ y ∈ s.xip, y/2^32 = x/2^32 := by
    intro y hy
    obtain ⟨hge,hlt⟩ := s.within y hy
    have := Nat.div_le_div_right (c := 2^32) hge
    have := Nat.div_le_div_right (c := 2^32) hlt.le
    omega
  have hsame : ∀ y ∈ s.xip, low32 y = low32 x → y = x := by
    intro y hy he
    rw [← epoch_low32 y,← epoch_low32 x,hxip y hy,he]
  have hbelow := hlow x rfl s.xmin hmin
  have hunder := hlow x rfl s.xmax hmax
  have hne : s.Shows x → low32 s.xmax ≠ 0 := by
    intro hs hzero
    have hlt : x < s.xmax := hs.elim (fun h => h.trans_le s.ordered) And.left
    have := hunder.mpr hlt
    omega
  rw [← not_misread_iff 0,visible_iff]
  constructor
  · rintro ⟨-,h | ⟨h,hapart⟩⟩
    · exact .inl (hbelow.mp h)
    · exact .inr ⟨hunder.mp h,fun hx => hapart x hx rfl⟩
  · intro hs
    refine ⟨hne hs,hs.imp hbelow.mpr fun h => ⟨hunder.mpr h.1,fun y hy he => h.2 ?_⟩⟩
    exact hsame y hy he ▸ hy

/-- The fence compares the words: the id arrives as the text of its low one. -/
lemma skips_eq (s : PgSnapshot) (x : ℕ) (seedLsn : String) (commitLsn : Option String) :
    Stamp.skips ⟨some (low32 x).repr,commitLsn⟩ (SnapshotGate.parse s.text seedLsn) =
      SnapshotGate.visible ⟨lsnToU64 seedLsn,low32 s.xmin,low32 s.xmax,s.xip.map low32⟩ (low32 x) := by
  have hword : low32 x < 2^64 := by
    rw [low32_eq]
    omega
  have hxid : Stamp.xid ⟨some (low32 x).repr,commitLsn⟩ = some (low32 x) := by
    rw [Stamp.xid,Option.bind_some,Nat.toList_repr,parseUnsigned_toDigits hword]
  rw [Stamp.skips,hxid,parse_text]
  rfl

/-- A change of a committed transaction, delivered with the low word of its id, is skipped exactly if the
snapshot shows it, if and only if the words do not mislead the gate. -/
theorem skips_iff (s : PgSnapshot) (x : ℕ) (seedLsn : String) (commitLsn : Option String) :
    (Stamp.skips ⟨some (low32 x).repr,commitLsn⟩ (SnapshotGate.parse s.text seedLsn) = true ↔ s.Shows x) ↔
      ¬s.Misread x := by
  rw [skips_eq]
  exact not_misread_iff _ s x

/-- A snapshot of a young cluster. -/
def sample : PgSnapshot := ⟨100,110,[103,107],by decide,by decide,by decide⟩

/-- Long after the backfill the word of a new transaction is before the snapshot's again. -/
theorem sample_dropped : ¬∀ (s : PgSnapshot) (x : ℕ) (seedLsn : String) (commitLsn : Option String),
    Stamp.skips ⟨some (low32 x).repr,commitLsn⟩ (SnapshotGate.parse s.text seedLsn) = true ↔ s.Shows x := by
  intro h
  have hskipped := skips_eq sample (2^32+50) "0/100" none
  have hshown := (h sample (2^32+50) "0/100" none).mp (hskipped.trans (by rfl))
  exact absurd hshown (by decide)

end PgSnapshot
end ElectricCircuits
