import ElectricCircuits.Value
import Mathlib.Data.List.DropRight

/-! The change event carried by the change log and by every shape stream, with the transaction stamps
that the ingestor puts on it. -/
namespace ElectricCircuits

/-- `serde_json::Value`; a number is an integer or a double. -/
inductive Json where
  | null
  | bool (b : Bool)
  | int (i : ℤ)
  | float (f : OrderedFloat)
  | string (s : String)
  | array (xs : List Json)
  | object (fields : List (String × Json))

namespace Json

def get? (j : Json) (name : String) : Option Json :=
  match j with
  | object fields => (fields.find? (·.1 == name)).map (·.2)
  | _ => none

def asU64 : Json → Option ℕ
  | int i => if 0 ≤ i then some i.toNat else none
  | _ => none

def asStr : Json → Option String
  | string s => some s
  | _ => none

end Json

structure EnvelopeHeaders where
  operation : String
  txid : Option String
  lsn : Option String
  seq : Option ℕ
  last : Option Bool

structure Envelope where
  type_ : String
  key : String
  value : Option Json
  old : Option Json
  headers : EnvelopeHeaders

/-- The digits of an unsigned number below `max`, an optional `+` in front, as `from_str_radix`. -/
def parseUnsigned (radix max : ℕ) (s : List Char) : Option ℕ :=
  let digits := if s.head? = some '+' then s.tail else s
  if digits.isEmpty then none
  else
    (digits.mapM fun c =>
      let d :=
        if c.isDigit then c.toNat - '0'.toNat
        else if c.isLower then c.toNat - 'a'.toNat + 10
        else if c.isUpper then c.toNat - 'A'.toNat + 10
        else radix
      if d < radix then some d else none).bind fun ds =>
        let n := ds.foldl (fun n d => n*radix+d) 0
        if n < max then some n else none

/-- `White_Space`. -/
def isWhitespace (c : Char) : Bool :=
  let n := c.toNat
  (0x9 ≤ n && n ≤ 0xd) || (0x2000 ≤ n && n ≤ 0x200a) ||
    n ∈ [0x20,0x85,0xa0,0x1680,0x2028,0x2029,0x202f,0x205f,0x3000]

/-- A printing character of ASCII is no white space. -/
lemma isWhitespace_of_ascii {c : Char} (hc : 0x20 < c.toNat ∧ c.toNat < 0x7f) : isWhitespace c = false := by
  simp only [isWhitespace,Bool.or_eq_false_iff,Bool.and_eq_false_iff,decide_eq_false_iff_not,List.mem_cons,
    List.not_mem_nil,or_false]
  omega

def trim (s : List Char) : List Char := (s.dropWhile isWhitespace).rdropWhile isWhitespace

/-- A number below the bound is read back from its digits. -/
lemma parseUnsigned_toDigits {n max : ℕ} (h : n < max) :
    parseUnsigned 10 max (Nat.toDigits 10 n) = some n := by
  have hdigit : ∀ c ∈ Nat.toDigits 10 n, c.isDigit = true :=
    fun c hc => Nat.isDigit_of_mem_toDigits (by decide) (by decide) hc
  have hplus : (Nat.toDigits 10 n).head? ≠ some '+' :=
    fun hc => absurd (hdigit _ (List.mem_of_mem_head? hc)) (by decide)
  have hvalue : ∀ cs : List Char, (∀ c ∈ cs, c.isDigit = true) →
      (cs.mapM fun c =>
        let d :=
          if c.isDigit then c.toNat - '0'.toNat
          else if c.isLower then c.toNat - 'a'.toNat + 10
          else if c.isUpper then c.toNat - 'A'.toNat + 10
          else 10
        if d < 10 then some d else none) = some (cs.map fun c => c.toNat - '0'.toNat) := by
    intro cs hcs
    induction cs with
    | nil => rfl
    | cons c cs ih =>
      obtain ⟨hc,hrest⟩ := List.forall_mem_cons.mp hcs
      have hlt : c.toNat - '0'.toNat < 10 := by
        have hbounds := Char.isDigit_iff_toNat.mp hc
        simp only [Char.reduceToNat] at hbounds ⊢
        omega
      rw [List.mapM_cons,ih hrest]
      simp only [hc,if_true,if_pos hlt]
      rfl
  have hfold : ((Nat.toDigits 10 n).map fun c => c.toNat - '0'.toNat).foldl (fun n d => n*10+d) 0 = n := by
    have hread := Nat.ofDigitChars_ten_toDigits (n := n)
    rw [Nat.ofDigitChars_eq_foldl] at hread
    rw [List.foldl_map]
    simpa only [Nat.mul_comm] using hread
  unfold parseUnsigned
  rw [if_neg hplus]
  dsimp only
  rw [hvalue _ hdigit,if_neg (by simp [Nat.toDigits_ne_nil]),Option.bind_some,hfold,if_pos h]

lemma trim_toDigits (n : ℕ) : trim (Nat.toDigits 10 n) = Nat.toDigits 10 n := by
  have hspace : ∀ c ∈ Nat.toDigits 10 n, isWhitespace c = false := by
    intro c hc
    have hbounds := Char.isDigit_iff_toNat.mp (Nat.isDigit_of_mem_toDigits (by decide) (by decide) hc)
    simp only [Char.reduceToNat] at hbounds
    exact isWhitespace_of_ascii (by omega)
  unfold trim
  rw [List.dropWhile_eq_self_iff.mpr fun hl => by simp [hspace _ (List.getElem_mem hl)],
    List.rdropWhile_eq_self_iff.mpr fun hl => by simp [hspace _ (List.getLast_mem hl)]]

/-- A Postgres LSN `hi/lo` as one 64-bit number; anything unreadable counts as zero. -/
def lsnToU64 (lsn : String) : ℕ :=
  let cs := lsn.toList
  if '/' ∈ cs then
    let hi := (parseUnsigned 16 (2^64) (trim (cs.takeWhile (· ≠ '/')))).getD 0
    let lo := (parseUnsigned 16 (2^64) (trim (cs.dropWhile (· ≠ '/')).tail)).getD 0
    (hi*2^32 % 2^64) ||| lo
  else 0

namespace Envelope

/-- `(lsn, seq)` of a change that carries both. -/
def position (e : Envelope) : Option (ℕ ×ₗ ℕ) :=
  match e.headers.lsn,e.headers.seq with
  | some l,some seq => some (toLex (lsnToU64 l,seq))
  | _,_ => none

/-- The pair that the runs of the change log are split on. -/
def runKey (e : Envelope) : Option String × Option String := (e.headers.txid,e.headers.lsn)

end Envelope

def controlType : String := "__circuits.control"
def rotated : String := "rotated"
def changesPrefix : String := "changes"

/-- Change-log routing metadata, not a change. -/
def isControl (e : Envelope) : Bool := e.type_ == controlType

/-- The segment that a rotation pointer names. -/
def rotationTarget (e : Envelope) : Option ℕ :=
  if !isControl e || e.headers.operation != rotated then none
  else
    e.value.bind fun value =>
      match (value.get? "segment").bind Json.asU64 with
      | some n => if n < 2^32 then some n else none
      | none =>
        (((value.get? "next").bind Json.asStr).bind fun next =>
          ((changesPrefix ++ "/").toList.isPrefixOf? next.toList)).bind (parseUnsigned 10 (2^32))

/-- The last rotation pointer of a page. -/
def rotationTargetIn (page : List Envelope) : Option ℕ := page.reverse.findSome? rotationTarget

example : lsnToU64 "1/A0" = 2^32 + 160 := by decide +kernel

end ElectricCircuits
