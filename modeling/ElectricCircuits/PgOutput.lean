import ElectricCircuits.Lib.Reader
import Mathlib.Data.List.TakeWhile
import Mathlib.Data.String.Basic

/-! The decoder of logical replication messages, against the encoding that the server sends. -/
namespace ElectricCircuits
namespace PgOutput

/-- One column of a tuple, in text mode. -/
inductive Cell where
  | null
  | unchangedToast
  | text (s : String)
  deriving DecidableEq

abbrev Tuple := List Cell

inductive OldTuple where
  | full (t : Tuple)
  | key (t : Tuple)
  deriving DecidableEq

structure RelColumn where
  name : String
  typeOid : UInt32
  typmod : Int32
  key : Bool
  deriving DecidableEq

inductive Message where
  | relation (relId : UInt32) (namespace_ name : String) (replident : UInt8) (columns : List RelColumn)
  | insert (relId : UInt32) (new : Tuple)
  | update (relId : UInt32) (old : Option OldTuple) (new : Tuple)
  | delete (relId : UInt32) (old : OldTuple)
  | truncate (relIds : List UInt32)
  | ignored
  deriving DecidableEq

/-- A byte literal. -/
def tagByte (c : Char) : UInt8 := UInt8.ofNat c.toNat

/-- `{:#x}`. -/
def hex (b : UInt8) : String := "0x" ++ String.ofList (Nat.toDigits 16 b.toNat)

/-- The bytes that can follow a first byte of three or four. -/
def secondOk (first second : UInt8) : Bool :=
  (first == 0xE0 && 0xA0 ≤ second && second ≤ 0xBF) ||
  ((0xE1 ≤ first && first ≤ 0xEC || 0xEE ≤ first && first ≤ 0xEF) && 0x80 ≤ second && second ≤ 0xBF) ||
  (first == 0xED && 0x80 ≤ second && second ≤ 0x9F) ||
  (first == 0xF0 && 0x90 ≤ second && second ≤ 0xBF) ||
  (0xF1 ≤ first && first ≤ 0xF3 && 0x80 ≤ second && second ≤ 0xBF) ||
  (first == 0xF4 && 0x80 ≤ second && second ≤ 0x8F)

/-- What belongs to one malformed character after its first byte. -/
def malformedTail (first : UInt8) : List UInt8 → ℕ
  | [] => 0
  | second :: rest =>
    if secondOk first second then
      if 0xF0 ≤ first ∧ rest.head?.any fun b => 0x80 ≤ b && b ≤ 0xBF then 2 else 1
    else 0

/-- `from_utf8_lossy`, at most a number of characters: each malformed one becomes U+FFFD. -/
def lossyChars : ℕ → List UInt8 → List Char
  | 0,_ | _+1,[] => []
  | n+1,b :: bs =>
    match (b :: bs).toByteArray.utf8DecodeChar? 0 with
    | some c => c :: lossyChars n ((b :: bs).drop c.utf8Size)
    | none => Char.ofNat 0xFFFD :: lossyChars n (bs.drop (malformedTail b bs))

def fromUtf8Lossy (bs : List UInt8) : String := String.ofList (lossyChars bs.length bs)

/-- A number from its bytes, the first of most weight. -/
def fromBe (bs : List UInt8) : ℕ := bs.foldl (fun n b => n*256+b.toNat) 0

abbrev Rd (α : Type) := Reader String UInt8 α

namespace Rd

def take (n : ℕ) : Rd (List UInt8) := fun r =>
  if r.buf.length < r.pos+n then
    .error s!"pgoutput message truncated at byte {r.pos} (wanted {n} more)"
  else .ok ((r.buf.drop r.pos).take n,{ r with pos := r.pos+n })

def u8 : Rd UInt8 := do return UInt8.ofNat (fromBe (← take 1))
def i16 : Rd Int16 := do return Int16.ofNat (fromBe (← take 2))
def u32 : Rd UInt32 := do return UInt32.ofNat (fromBe (← take 4))
def i32 : Rd Int32 := do return Int32.ofNat (fromBe (← take 4))

def cstr : Rd String := fun r =>
  let s := (r.buf.drop r.pos).takeWhile (· ≠ 0)
  if r.buf.length ≤ r.pos+s.length then .error "pgoutput message: unterminated string"
  else .ok (fromUtf8Lossy s,{ r with pos := r.pos+s.length+1 })

def cell : Rd Cell := do
  let kind ← u8
  if kind = tagByte 'n' then return .null
  else if kind = tagByte 'u' then return .unchangedToast
  else if kind = tagByte 't' then
    let len ← i32
    if len.toInt < 0 then throw "pgoutput tuple: negative text length"
    else return .text (fromUtf8Lossy (← take len.toInt.toNat))
  else throw s!"pgoutput tuple: unsupported cell kind {hex kind}"

def tuple : Rd Tuple := do
  let ncols ← i16
  Reader.many cell ncols.toInt.toNat

def relColumn : Rd RelColumn := do
  let flags ← u8
  let name ← cstr
  let typeOid ← u32
  let typmod ← i32
  return { name,typeOid,typmod,key := flags &&& 1 ≠ 0 }

def relation : Rd Message := do
  let relId ← u32
  let namespace_ ← cstr
  let name ← cstr
  let replident ← u8
  let ncols ← i16
  let columns ← Reader.many relColumn ncols.toInt.toNat
  return .relation relId namespace_ name replident columns

def insert : Rd Message := do
  let relId ← u32
  let marker ← u8
  if marker ≠ tagByte 'N' then throw s!"pgoutput INSERT: expected 'N' tuple marker, got {hex marker}"
  else return .insert relId (← tuple)

/-- The end of an UPDATE, from the marker of its new tuple. -/
def updateNew (relId : UInt32) (old : Option OldTuple) (marker : UInt8) : Rd Message :=
  if marker ≠ tagByte 'N' then throw s!"pgoutput UPDATE: expected 'N' tuple marker, got {hex marker}"
  else do return .update relId old (← tuple)

def update : Rd Message := do
  let relId ← u32
  let marker ← u8
  if marker = tagByte 'K' then
    let old ← tuple
    updateNew relId (some (.key old)) (← u8)
  else if marker = tagByte 'O' then
    let old ← tuple
    updateNew relId (some (.full old)) (← u8)
  else updateNew relId none marker

def delete : Rd Message := do
  let relId ← u32
  let marker ← u8
  if marker = tagByte 'O' then return .delete relId (.full (← tuple))
  else if marker = tagByte 'K' then return .delete relId (.key (← tuple))
  else throw s!"pgoutput DELETE: expected 'O'/'K' tuple marker, got {hex marker}"

def truncate : Rd Message := do
  let n ← u32
  let _options ← u8
  let relIds ← Reader.many u32 n.toNat
  return .truncate relIds

/-- What follows the tag of a message. -/
def body (tag : UInt8) : Rd Message :=
  if tag = tagByte 'R' then relation
  else if tag = tagByte 'I' then insert
  else if tag = tagByte 'U' then update
  else if tag = tagByte 'D' then delete
  else if tag = tagByte 'T' then truncate
  else pure .ignored

end Rd

/-- Decode one message, the payload of an XLogData frame. -/
def decode (data : List UInt8) : Except String Message :=
  match Rd.u8.run ⟨data,0⟩ with
  | .error _ => .error "empty pgoutput message"
  | .ok (tag,r) => (Rd.body tag).run' r

example : decode [tagByte 'T',0,0,0,2,0,0,0,0,42,0,0,0,43] = .ok (.truncate [42,43]) := by decide
example : decode [tagByte 'Y',0,0] = .ok .ignored := by decide

/-- A cell as the server sends it. -/
inductive WireCell where
  | null
  | unchanged
  | text (s : String)
  | binary (bytes : List UInt8)

inductive WireOld where
  | key (t : List WireCell)
  | full (t : List WireCell)

structure WireColumn where
  flags : UInt8
  name : String
  typeOid : UInt32
  typmod : Int32

/-- A message of the protocol; BEGIN, COMMIT, ORIGIN, TYPE and the like by their tag and payload. -/
inductive WireMessage where
  | relation (relId : UInt32) (namespace_ name : String) (replident : UInt8) (columns : List WireColumn)
  | insert (relId : UInt32) (new : List WireCell)
  | update (relId : UInt32) (old : Option WireOld) (new : List WireCell)
  | delete (relId : UInt32) (old : WireOld)
  | truncate (options : UInt8) (relIds : List UInt32)
  | other (tag : UInt8) (payload : List UInt8)

/-- A number in so many bytes, the first of most weight. -/
def toBe : ℕ → ℕ → List UInt8
  | 0,_ => []
  | k+1,n => toBe k (n/256) ++ [UInt8.ofNat n]

def utf8 (s : String) : List UInt8 := s.toList.flatMap String.utf8EncodeChar

def encodeCstr (s : String) : List UInt8 := utf8 s ++ [0]

def WireCell.encode : WireCell → List UInt8
  | null => [tagByte 'n']
  | unchanged => [tagByte 'u']
  | text s => tagByte 't' :: (toBe 4 (utf8 s).length ++ utf8 s)
  | binary bytes => tagByte 'b' :: (toBe 4 bytes.length ++ bytes)

def encodeTuple (t : List WireCell) : List UInt8 := toBe 2 t.length ++ t.flatMap WireCell.encode

def WireColumn.encode (c : WireColumn) : List UInt8 :=
  [c.flags] ++ (encodeCstr c.name ++ (toBe 4 c.typeOid.toNat ++ toBe 4 c.typmod.toUInt32.toNat))

def WireOld.encode : WireOld → List UInt8
  | key t => tagByte 'K' :: encodeTuple t
  | full t => tagByte 'O' :: encodeTuple t

def WireMessage.encode : WireMessage → List UInt8
  | relation relId namespace_ name replident columns =>
    tagByte 'R' :: (toBe 4 relId.toNat ++ (encodeCstr namespace_ ++ (encodeCstr name ++ ([replident] ++
      (toBe 2 columns.length ++ columns.flatMap WireColumn.encode)))))
  | insert relId new => tagByte 'I' :: (toBe 4 relId.toNat ++ ([tagByte 'N'] ++ encodeTuple new))
  | update relId old new =>
    tagByte 'U' :: (toBe 4 relId.toNat ++ ((old.map WireOld.encode).getD [] ++
      ([tagByte 'N'] ++ encodeTuple new)))
  | delete relId old => tagByte 'D' :: (toBe 4 relId.toNat ++ old.encode)
  | truncate options relIds =>
    tagByte 'T' :: (toBe 4 relIds.length ++ ([options] ++ relIds.flatMap fun x => toBe 4 x.toNat))
  | other tag payload => tag :: payload

/-- What a cell is to the decoder; a binary one is refused. -/
def WireCell.cell : WireCell → Except String Cell
  | null => .ok .null
  | unchanged => .ok .unchangedToast
  | text s => .ok (.text s)
  | binary _ => .error "pgoutput tuple: unsupported cell kind 0x62"

def WireOld.oldTuple : WireOld → Except String OldTuple
  | key t => (t.mapM WireCell.cell).map .key
  | full t => (t.mapM WireCell.cell).map .full

def WireColumn.column (c : WireColumn) : RelColumn := ⟨c.name,c.typeOid,c.typmod,c.flags &&& 1 ≠ 0⟩

/-- What a message is to the decoder. -/
def WireMessage.message : WireMessage → Except String Message
  | relation relId namespace_ name replident columns =>
    .ok (.relation relId namespace_ name replident (columns.map WireColumn.column))
  | insert relId new => (new.mapM WireCell.cell).map (.insert relId)
  | update relId none new => (new.mapM WireCell.cell).map (.update relId none)
  | update relId (some old) new => do return .update relId (some (← old.oldTuple)) (← new.mapM WireCell.cell)
  | delete relId old => old.oldTuple.map (.delete relId)
  | truncate _ relIds => .ok (.truncate relIds)
  | other _ _ => .ok .ignored

def WireCell.Fits : WireCell → Prop
  | text s => (utf8 s).length < 2^31
  | binary bytes => bytes.length < 2^31
  | _ => True

/-- A tuple within the limits of its counts. -/
def FitsTuple (t : List WireCell) : Prop := t.length < 2^15 ∧ ∀ c ∈ t, c.Fits

def WireOld.Fits : WireOld → Prop
  | key t | full t => FitsTuple t

/-- The counts are within their limits, and names have no NUL. -/
def WireMessage.WellFormed : WireMessage → Prop
  | relation _ namespace_ name _ columns => Char.ofNat 0 ∉ namespace_.toList ∧ Char.ofNat 0 ∉ name.toList ∧
      columns.length < 2^15 ∧ ∀ c ∈ columns, Char.ofNat 0 ∉ c.name.toList
  | insert _ new => FitsTuple new
  | update _ old new => (∀ o ∈ old, o.Fits) ∧ FitsTuple new
  | delete _ old => old.Fits
  | truncate _ relIds => relIds.length < 2^32
  | other tag _ => ∀ c ∈ ['R','I','U','D','T'], tag ≠ tagByte c

section
open Reader

lemma length_toBe (k n : ℕ) : (toBe k n).length = k := by
  induction k generalizing n with
  | zero => rfl
  | succ k ih => simp [toBe,ih]

lemma fromBe_toBe (k n : ℕ) : fromBe (toBe k n) = n % 256^k := by
  induction k generalizing n with
  | zero => simp [toBe,fromBe,Nat.mod_one]
  | succ k ih =>
    have hih := ih (n/256)
    rw [fromBe] at hih
    rw [toBe,fromBe,List.foldl_append,hih]
    have hbyte : (UInt8.ofNat n).toNat = n % 256 := UInt8.toNat_ofNat'
    rw [List.foldl_cons,List.foldl_nil,hbyte,Nat.pow_succ',Nat.mod_mul,Nat.mul_comm,Nat.add_comm]

lemma reads_take (bs : List UInt8) : Reads (Rd.take bs.length) bs (.ok bs) where
  whole pre rest := by
    have hlen : ¬(pre ++ (bs ++ rest)).length < pre.length+bs.length := by simp
    change Rd.take bs.length _ = _
    rw [Rd.take,if_neg hlen]
    simp [Except.map]
  cut pre part hpart hne := by
    have hlt : part.length < bs.length :=
      lt_of_le_of_ne hpart.length_le fun h => hne (hpart.eq_of_length h)
    have hlen : (pre ++ part).length < pre.length+bs.length := by simpa using hlt
    exact ⟨_,if_pos hlen⟩

lemma reads_number {α : Type} {k n : ℕ} (hn : n < 256^k) (f : ℕ → α) :
    Reads (do return f (fromBe (← Rd.take k)) : Rd α) (toBe k n) (.ok (f n)) := by
  have h := (reads_take (toBe k n)).map fun bs => f (fromBe bs)
  rwa [length_toBe,Except.map,fromBe_toBe,Nat.mod_eq_of_lt hn] at h

lemma reads_u8 (b : UInt8) : Reads Rd.u8 [b] (.ok b) := by
  have h := reads_number (k := 1) b.toNat_lt UInt8.ofNat
  rwa [toBe,toBe,List.nil_append,UInt8.ofNat_toNat] at h

lemma reads_i16 {n : ℕ} (hn : n < 2^15) : Reads Rd.i16 (toBe 2 n) (.ok (Int16.ofNat n)) :=
  reads_number (by omega) Int16.ofNat

lemma reads_u32 (x : UInt32) : Reads Rd.u32 (toBe 4 x.toNat) (.ok x) := by
  have h := reads_number (k := 4) x.toNat_lt UInt32.ofNat
  rwa [UInt32.ofNat_toNat] at h

lemma reads_i32 (x : Int32) : Reads Rd.i32 (toBe 4 x.toUInt32.toNat) (.ok x) := by
  have h := reads_number (k := 4) x.toUInt32.toNat_lt Int32.ofNat
  have hx : Int32.ofNat x.toUInt32.toNat = x := by
    rw [← UInt32.toInt32_ofNat']
    simp
  rwa [hx] at h

/-- A character that is encoded is decoded. -/
lemma lossyChars_utf8 (cs : List Char) (n : ℕ) (hn : (cs.flatMap String.utf8EncodeChar).length ≤ n) :
    lossyChars n (cs.flatMap String.utf8EncodeChar) = cs := by
  induction cs generalizing n with
  | nil => cases n <;> rfl
  | cons c cs ih =>
    rw [List.flatMap_cons,List.length_append,String.length_utf8EncodeChar] at hn
    have hpos := c.utf8Size_pos
    obtain ⟨m,rfl⟩ : ∃ m, n = m+1 := ⟨n-1,by omega⟩
    have hdecode : ((c::cs).flatMap String.utf8EncodeChar).toByteArray.utf8DecodeChar? 0 = some c := by
      rw [List.flatMap_cons,List.toByteArray_append]
      exact ByteArray.utf8DecodeChar?_utf8EncodeChar_append
    have hdrop : ((c::cs).flatMap String.utf8EncodeChar).drop c.utf8Size = cs.flatMap String.utf8EncodeChar := by
      rw [List.flatMap_cons,← String.length_utf8EncodeChar,List.drop_left]
    cases henc : (c::cs).flatMap String.utf8EncodeChar with
    | nil =>
      have hlen := congrArg List.length henc
      rw [List.flatMap_cons,List.length_append,String.length_utf8EncodeChar,List.length_nil] at hlen
      omega
    | cons b bs =>
      rw [henc] at hdecode hdrop
      rw [lossyChars,hdecode]
      simp only [hdrop]
      rw [ih m (by omega)]

lemma fromUtf8Lossy_utf8 (s : String) : fromUtf8Lossy (utf8 s) = s := by
  rw [fromUtf8Lossy,utf8,lossyChars_utf8 _ _ le_rfl,String.ofList_toList]

/-- Only the NUL character has a NUL byte. -/
lemma zero_mem_utf8EncodeChar {c : Char} (h : 0 ∈ String.utf8EncodeChar c) : c = Char.ofNat 0 := by
  have hor : ∀ a b : UInt8, b ≠ 0 → ¬0 = a ||| b := fun a b hb h =>
    hb (UInt8.or_eq_zero_iff.mp h.symm).2
  rcases c.utf8Size_eq with hc | hc | hc | hc
  · rw [String.utf8EncodeChar_eq_singleton hc,List.mem_singleton] at h
    have hle : c.val.toNat ≤ 127 := Char.utf8Size_eq_one_iff.mp hc
    have hmod := congrArg UInt8.toNat h
    rw [UInt32.toNat_toUInt8] at hmod
    have hzero : c.val.toNat = 0 := by
      change 0 = _ at hmod
      omega
    exact Char.ext (UInt32.toNat_inj.mp hzero)
  · rw [String.utf8EncodeChar_eq_cons_cons hc] at h
    simp [hor] at h
  · rw [String.utf8EncodeChar_eq_cons_cons_cons hc] at h
    simp [hor] at h
  · rw [String.utf8EncodeChar_eq_cons_cons_cons_cons hc] at h
    simp [hor] at h

lemma ne_zero_of_mem_utf8 {s : String} (hs : Char.ofNat 0 ∉ s.toList) : ∀ b ∈ utf8 s, b ≠ 0 := by
  rintro b hb rfl
  obtain ⟨c,hc,hbc⟩ := List.mem_flatMap.mp hb
  exact hs (zero_mem_utf8EncodeChar hbc ▸ hc)

lemma reads_cstr {s : String} (hs : Char.ofNat 0 ∉ s.toList) : Reads Rd.cstr (encodeCstr s) (.ok s) where
  whole pre rest := by
    have hne : ∀ b ∈ utf8 s, decide (b ≠ 0) = true := fun b hb => decide_eq_true (ne_zero_of_mem_utf8 hs b hb)
    have htake : (encodeCstr s ++ rest).takeWhile (· ≠ 0) = utf8 s := by
      rw [encodeCstr,List.append_assoc,List.takeWhile_append_of_pos hne]
      simp
    have hlen : ¬(pre ++ (encodeCstr s ++ rest)).length ≤ pre.length+(utf8 s).length := by
      simp [encodeCstr]
    change Rd.cstr _ = _
    simp only [Rd.cstr,List.drop_left,htake]
    rw [if_neg hlen,fromUtf8Lossy_utf8]
    simp [Except.map,encodeCstr,Nat.add_assoc]
  cut pre part hpart hne := by
    -- a strict prefix has the terminator not yet
    have hpart' : part <+: utf8 s := by
      rw [encodeCstr] at hpart hne
      rcases List.prefix_concat_iff.mp hpart with h | h
      · exact absurd h hne
      · exact h
    have htake : part.takeWhile (· ≠ 0) = part := List.takeWhile_eq_self_iff.mpr fun b hb =>
      decide_eq_true (ne_zero_of_mem_utf8 hs b (hpart'.subset hb))
    have hlen : (pre ++ part).length ≤ pre.length+part.length := List.length_append.le
    refine ⟨"pgoutput message: unterminated string",?_⟩
    change Rd.cstr _ = _
    simp only [Rd.cstr,List.drop_left,htake]
    rw [if_pos hlen]

lemma reads_cell {c : WireCell} (hc : c.Fits) : Reads Rd.cell c.encode c.cell := by
  cases c with
  | null => exact (reads_u8 _).bind (reads_pure _)
  | unchanged => exact (reads_u8 _).bind (reads_pure _)
  | text s =>
    have hlen : (utf8 s).length < 256^4 := lt_trans hc (by decide)
    have htoInt : (Int32.ofNat (utf8 s).length).toInt = (utf8 s).length := Int32.toInt_ofNat_of_lt hc
    refine (reads_u8 _).bind ((reads_number hlen Int32.ofNat).bind ?_)
    simp only [htoInt,Int.toNat_natCast]
    rw [if_neg (by omega)]
    have hmap := (reads_take (utf8 s)).map fun bs => Cell.text (fromUtf8Lossy bs)
    rwa [Except.map,fromUtf8Lossy_utf8] at hmap
  | binary bytes => exact (reads_u8 _).bind ((reads_throw _).bind_error pure _)

lemma reads_tuple {t : List WireCell} (ht : FitsTuple t) :
    Reads Rd.tuple (encodeTuple t) (t.mapM WireCell.cell) := by
  have hcount : (Int16.ofNat t.length).toInt = t.length := Int16.toInt_ofNat_of_lt ht.1
  refine (reads_i16 ht.1).bind ?_
  rw [hcount,Int.toNat_natCast]
  exact reads_many fun c hc => reads_cell (ht.2 c hc)

lemma reads_relColumn {c : WireColumn} (hc : Char.ofNat 0 ∉ c.name.toList) :
    Reads Rd.relColumn c.encode (.ok c.column) := by
  refine (reads_u8 c.flags).bind ((reads_cstr hc).bind ((reads_u32 c.typeOid).bind ?_))
  exact (reads_i32 c.typmod).map _

/-- What follows the tag of a message is read for what it is, whole and no less. -/
lemma reads_relation {relId : UInt32} {namespace_ name : String} {replident : UInt8}
    {columns : List WireColumn} (hnamespace : Char.ofNat 0 ∉ namespace_.toList)
    (hname : Char.ofNat 0 ∉ name.toList) (hcount : columns.length < 2^15)
    (hcolumns : ∀ c ∈ columns, Char.ofNat 0 ∉ c.name.toList) : Reads Rd.relation
      (toBe 4 relId.toNat ++ (encodeCstr namespace_ ++ (encodeCstr name ++ ([replident] ++
        (toBe 2 columns.length ++ columns.flatMap WireColumn.encode)))))
      (.ok (.relation relId namespace_ name replident (columns.map WireColumn.column))) := by
  have htoInt : (Int16.ofNat columns.length).toInt = columns.length := Int16.toInt_ofNat_of_lt hcount
  have hmany := reads_many fun c hc => reads_relColumn (hcolumns c hc)
  refine (reads_u32 relId).bind ((reads_cstr hnamespace).bind ((reads_cstr hname).bind
    ((reads_u8 replident).bind ((reads_i16 hcount).bind ?_))))
  rw [htoInt,Int.toNat_natCast]
  have hval : (columns.mapM fun c => (.ok c.column : Except String RelColumn)) =
      .ok (columns.map WireColumn.column) := List.mapM_pure
  rw [hval] at hmany
  exact hmany.map _

lemma reads_update_new {relId : UInt32} {old : Option OldTuple} {new : List WireCell} (hnew : FitsTuple new) :
    Reads (Rd.updateNew relId old (tagByte 'N')) (encodeTuple new)
      ((new.mapM WireCell.cell).map (.update relId old)) :=
  (reads_tuple hnew).map _

lemma reads_update_old {relId : UInt32} {t new : List WireCell} (ht : FitsTuple t) (hnew : FitsTuple new)
    (mk : Tuple → OldTuple) : Reads (do
        let old ← Rd.tuple
        Rd.updateNew relId (some (mk old)) (← Rd.u8))
      (encodeTuple t ++ ([tagByte 'N'] ++ encodeTuple new))
      (do return .update relId (some (← (t.mapM WireCell.cell).map mk)) (← new.mapM WireCell.cell)) := by
  have hrest : ∀ old, Reads (do Rd.updateNew relId (some (mk old)) (← Rd.u8))
      ([tagByte 'N'] ++ encodeTuple new) ((new.mapM WireCell.cell).map (.update relId (some (mk old)))) :=
    fun old => (reads_u8 _).bind (reads_update_new hnew)
  have h := (reads_tuple ht).then fun old _ => hrest old
  convert h using 1
  cases t.mapM WireCell.cell <;> cases new.mapM WireCell.cell <;> rfl

lemma reads_update {relId : UInt32} {old : Option WireOld} {new : List WireCell}
    (hold : ∀ o ∈ old, o.Fits) (hnew : FitsTuple new) : Reads Rd.update
      (toBe 4 relId.toNat ++ ((old.map WireOld.encode).getD [] ++ ([tagByte 'N'] ++ encodeTuple new)))
      (WireMessage.update relId old new).message := by
  refine (reads_u32 relId).bind ?_
  rcases old with _ | ⟨t⟩ | ⟨t⟩
  · exact (reads_u8 _).bind (reads_update_new hnew)
  · exact (reads_u8 _).bind (reads_update_old (hold (.key t) rfl) hnew .key)
  · exact (reads_u8 _).bind (reads_update_old (hold (.full t) rfl) hnew .full)

lemma reads_delete_old {relId : UInt32} {t : List WireCell} (ht : FitsTuple t) (mk : Tuple → OldTuple) :
    Reads (do return Message.delete relId (mk (← Rd.tuple))) (encodeTuple t)
      (((t.mapM WireCell.cell).map mk).map (.delete relId)) := by
  have h := (reads_tuple ht).map fun t => Message.delete relId (mk t)
  cases hcells : t.mapM WireCell.cell <;> rwa [hcells] at h

lemma reads_delete {relId : UInt32} {old : WireOld} (hold : old.Fits) :
    Reads Rd.delete (toBe 4 relId.toNat ++ old.encode) (old.oldTuple.map (.delete relId)) := by
  refine (reads_u32 relId).bind ?_
  cases old with
  | key t => exact (reads_u8 _).bind (reads_delete_old hold .key)
  | full t => exact (reads_u8 _).bind (reads_delete_old hold .full)

lemma reads_truncate {options : UInt8} {relIds : List UInt32} (hcount : relIds.length < 2^32) :
    Reads Rd.truncate (toBe 4 relIds.length ++ ([options] ++ relIds.flatMap fun x => toBe 4 x.toNat))
      (.ok (.truncate relIds)) := by
  have hlen : relIds.length < 256^4 := hcount.trans_eq (by decide)
  have hmany : Reads (many Rd.u32 relIds.length) (relIds.flatMap fun x => toBe 4 x.toNat)
      (relIds.mapM fun x => .ok x) := reads_many fun x _ => reads_u32 x
  have hval : (relIds.mapM fun x => (.ok x : Except String UInt32)) = .ok relIds := by
    have hpure := @List.mapM_pure (Except String) _ _ _ _ relIds fun x => x
    rwa [List.map_id'] at hpure
  rw [hval] at hmany
  refine (reads_number hlen UInt32.ofNat).bind ((reads_u8 options).bind ?_)
  rw [UInt32.toNat_ofNat_of_lt' hcount]
  exact hmany.map _

/-- What follows the tag is read for the message, whole and no less. -/
lemma reads_body {m : WireMessage} (h : m.WellFormed) (hkind : ∀ tag payload, m ≠ .other tag payload) :
    ∃ tag rest, m.encode = tag :: rest ∧ Reads (Rd.body tag) rest m.message := by
  cases m with
  | relation relId namespace_ name replident columns =>
    obtain ⟨hnamespace,hname,hcount,hcolumns⟩ := h
    exact ⟨_,_,rfl,reads_relation hnamespace hname hcount hcolumns⟩
  | insert relId new =>
    exact ⟨_,_,rfl,(reads_u32 relId).bind ((reads_u8 _).bind ((reads_tuple h).map _))⟩
  | update relId old new => exact ⟨_,_,rfl,reads_update h.1 h.2⟩
  | delete relId old => exact ⟨_,_,rfl,reads_delete h⟩
  | truncate options relIds => exact ⟨_,_,rfl,reads_truncate h⟩
  | other tag payload => exact absurd rfl (hkind tag payload)

lemma decode_cons (tag : UInt8) (rest : List UInt8) :
    decode (tag :: rest) = (Rd.body tag).run' ⟨tag :: rest,1⟩ := by
  have h := (reads_u8 tag).whole [] rest
  rw [decode]
  simp only [List.nil_append,List.singleton_append,List.length_nil,List.length_singleton] at h
  rw [h]
  rfl

lemma decode_other {tag : UInt8} (h : ∀ c ∈ ['R','I','U','D','T'], tag ≠ tagByte c) (rest : List UInt8) :
    decode (tag :: rest) = .ok .ignored := by
  simp only [List.forall_mem_cons] at h
  obtain ⟨hR,hI,hU,hD,hT,-⟩ := h
  rw [decode_cons,Rd.body,if_neg hR,if_neg hI,if_neg hU,if_neg hD,if_neg hT]
  rfl

/-- A message that is decoded is what its encoding says, and a strict prefix of it is an error; of the
others the tag decides, whatever is cut off behind it. -/
theorem decode_encode {m : WireMessage} (h : m.WellFormed) : decode m.encode = m.message ∧
    ∀ part, part <+: m.encode → part ≠ m.encode →
      ((∀ tag payload, m ≠ .other tag payload) ∨ part = [] → ∃ e, decode part = .error e) ∧
      ((∃ tag payload, m = .other tag payload) ∧ part ≠ [] → decode part = .ok .ignored) := by
  by_cases hkind : ∀ tag payload, m ≠ .other tag payload
  · obtain ⟨tag,rest,henc,hreads⟩ := reads_body h hkind
    rw [henc]
    refine ⟨?_,fun part hpart hne => ⟨fun _ => ?_,?_⟩⟩
    · have hwhole := hreads.whole [tag] []
      rw [List.append_nil] at hwhole
      rw [decode_cons]
      change Prod.fst <$> (Rd.body tag).run ⟨[tag] ++ rest,[tag].length⟩ = _
      rw [hwhole]
      cases m.message <;> rfl
    · cases part with
      | nil => exact ⟨_,rfl⟩
      | cons b part =>
        obtain ⟨rfl,hrest⟩ := List.cons_prefix_cons.mp hpart
        obtain ⟨e,he⟩ := hreads.cut [b] part hrest fun heq => hne (by rw [heq])
        refine ⟨e,?_⟩
        rw [decode_cons]
        change Prod.fst <$> (Rd.body b).run ⟨[b] ++ part,[b].length⟩ = _
        rw [he]
        rfl
    · rintro ⟨⟨tag,payload,hm⟩,-⟩
      exact absurd hm (hkind tag payload)
  · push Not at hkind
    obtain ⟨tag,payload,rfl⟩ := hkind
    refine ⟨decode_other h payload,fun part hpart hne => ⟨?_,?_⟩⟩
    · rintro (hno | rfl)
      · exact absurd rfl (hno tag payload)
      · exact ⟨_,rfl⟩
    · rintro ⟨-,hnil⟩
      cases part with
      | nil => exact absurd rfl hnil
      | cons b part =>
        obtain ⟨rfl,-⟩ := List.cons_prefix_cons.mp hpart
        exact decode_other h part

/-- An update with its old image, NULL and unchanged cells, and text that is not ASCII. -/
def sampleUpdate : WireMessage :=
  .update 42 (some (.full [.text "a",.null])) [.text "café",.unchanged]

theorem sample_decode_encode : decode sampleUpdate.encode =
      .ok (.update 42 (some (.full [.text "a",.null])) [.text "café",.unchangedToast]) ∧
    ∃ e, decode (sampleUpdate.encode.take 9) = .error e := by
  have hfits : sampleUpdate.WellFormed := by
    refine ⟨?_,by decide,?_⟩
    · rintro o ⟨⟩
      exact ⟨by decide,by simp [WireCell.Fits]; decide⟩
    · simp [WireCell.Fits]
      decide
  have h := decode_encode hfits
  exact ⟨h.1,(h.2 _ (List.take_prefix _ _) (by decide)).1 (.inl nofun)⟩

/-- A BEGIN: the final LSN, the time of the commit and the transaction. -/
def sampleBegin : WireMessage := .other (tagByte 'B') (toBe 8 1 ++ (toBe 8 2 ++ toBe 4 3))

def sampleBinary : WireMessage := .insert 42 [.binary [1]]

/-- A BEGIN is passed over, even when it is cut off, and a binary cell is refused. -/
theorem sample_decode_begin : sampleBinary.WellFormed ∧
    decode sampleBinary.encode = .error "pgoutput tuple: unsupported cell kind 0x62" ∧
    ¬∀ m : WireMessage, m.WellFormed → (∃ msg, decode m.encode = .ok msg) ∧
      ∀ part, part <+: m.encode → part ≠ m.encode → ∃ e, decode part = .error e := by
  refine ⟨⟨by decide,by simp [WireCell.Fits]⟩,by decide,fun h => ?_⟩
  have hbegin : sampleBegin.WellFormed := by simp [sampleBegin,WireMessage.WellFormed,tagByte]
  obtain ⟨e,he⟩ := (h sampleBegin hbegin).2 [tagByte 'B'] (by decide) (by decide)
  have hpassed : decode [tagByte 'B'] = .ok .ignored := by decide
  rw [hpassed] at he
  cases he

end

end PgOutput
end ElectricCircuits
