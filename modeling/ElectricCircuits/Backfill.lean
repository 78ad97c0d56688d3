import ElectricCircuits.StreamFold
import ElectricCircuits.TxnSpill

/-! A backfill snapshot read in chunks: rows come off a cursor one by one, and a chunk is closed before the row that
would take what is counted for its request body over the budget, which then opens the next chunk. -/
namespace ElectricCircuits

/-- Addition of 64-bit counters, overflow checked. -/
def addU64 (a b : ℕ) : Except String ℕ := if a+b < 2^64 then .ok (a+b) else .error "attempt to add with overflow"

/-- `chunk_is_full`. -/
def chunkIsFull (chunkRows chunkBytes rowBytes budget : ℕ) : Bool :=
  decide (0 < chunkRows) && decide (budget < min (chunkBytes+rowBytes) (2^64-1))

/-- `BACKFILL_ENVELOPE_FRAMING`. -/
def backfillEnvelopeFraming : ℕ := 96

/-- A snapshot that is being read: what the cursor still has, and the row that did not fit the chunk before. -/
structure BackfillReader where
  stream : Option (List (Except String Json))
  pending : Option (Row × ℕ)
  budget : ℕ
  frame : ℕ
  rows : ℕ
  chunks : ℕ
  estimatedBytes : ℕ

section
variable (ft : FloatText) (ts : TableSchema)

/-- A row as the cursor gives it, with the bytes that are counted for it in a request body. -/
def decodeRow (frame : ℕ) (item : Except String Json) : Except String (Row × ℕ) := do
  let j ← item.mapError fun e => s!"backfill select {ts.table}: {e}"
  let valueBytes := (String.ofList (j.chars ft)).utf8ByteSize
  match j with
  | .object _ =>
    let r ← ts.rowFromJson j
    let keyBytes := (ts.keyString r).toOption.elim 0 String.utf8ByteSize
    return (r,← addU64 (← addU64 valueBytes keyBytes) frame)
  | _ => .error "backfill row expr did not return an object"

/-- A chunk that is closed, and where it leaves the cursor. -/
structure Filled where
  chunk : List Row
  body : ℕ
  stream : Option (List (Except String Json))
  pending : Option (Row × ℕ)
  estimatedBytes : ℕ

/-- The turns of `next_chunk` that take a row off the cursor; a comma goes before every row but the first. -/
def fill (budget frame : ℕ) : List (Except String Json) → List Row → ℕ → ℕ → Except String Filled
  | [],chunk,body,estimated => .ok ⟨chunk,body,none,none,estimated⟩
  | item :: items,chunk,body,estimated => do
    let (row,cost) ← decodeRow ft ts frame item
    let estimated := min (estimated+cost) (2^64-1)
    let cost ← addU64 cost (if chunk.isEmpty then 0 else 1)
    if chunkIsFull chunk.length body cost budget then return ⟨chunk,body,some items,some (row,cost),estimated⟩
    else fill budget frame items (chunk ++ [row]) (← addU64 body cost) estimated

namespace BackfillReader
variable (r : BackfillReader)

/-- A chunk that a carried row opens is not full yet. -/
def opened : Except String (List Row × ℕ) :=
  match r.pending with
  | some (row,cost) => (addU64 2 cost).map fun body => ([row],body)
  | none => .ok ([],2)

/-- `next_chunk`. -/
def nextChunk : Except String (Option (List Row) × BackfillReader) :=
  if r.stream.isNone && r.pending.isNone then .ok (none,r)
  else do
    let (chunk,body) ← r.opened
    let f ← fill ft ts r.budget r.frame (r.stream.getD []) chunk body r.estimatedBytes
    let r := { r with stream := f.stream, pending := f.pending, estimatedBytes := f.estimatedBytes }
    if f.chunk.isEmpty then return (none,r)
    else return (some f.chunk,{ r with rows := r.rows+f.chunk.length, chunks := r.chunks+1 })

/-- A snapshot before its first row. -/
def openSnapshot (items : List (Except String Json)) (budget : ℕ) : BackfillReader :=
  ⟨some items,none,budget,backfillEnvelopeFraming+ts.table.utf8ByteSize,0,0,0⟩

/-- The chunks of a loop that calls `next_chunk` until there is none. -/
inductive Reads : BackfillReader → List (List Row) → BackfillReader → Prop where
  | done {r r' : BackfillReader} (h : r.nextChunk ft ts = .ok (none,r')) : Reads r [] r'
  | more {r r' r'' : BackfillReader} {chunk : List Row} {chunks : List (List Row)}
    (h : r.nextChunk ft ts = .ok (some chunk,r')) (hrest : Reads r' chunks r'') : Reads r (chunk :: chunks) r''

end BackfillReader

/-- What is counted for the body of some rows: brackets around them, and commas between them. -/
def countedBytes (part : List (Row × ℕ)) : ℕ := 2+(part.map (·.2)).sum+(part.length-1)

/-- A chunk as it may be closed. -/
def Fits (budget : ℕ) (part : List (Row × ℕ)) : Prop := countedBytes part ≤ budget ∨ part.length = 1

/-- The body of the append of a chunk: the upserts of the rows of the shape, with its columns. -/
def chunkBody (shape : Row → Bool) (outCols : Option (List ℕ)) (chunk : List Row) : List Char :=
  bodyText ft (translateOutput ts ((chunk.filter shape).map (·,1)) none none outCols)

/-- Every run of rows that is counted within the budget is within it as it is sent. -/
def MeasuresUp (shape : Row → Bool) (outCols : Option (List ℕ)) (budget : ℕ) (encoded : List (Row × ℕ)) : Prop :=
  ∀ run, run <:+: encoded → 2 ≤ run.length → countedBytes run ≤ budget →
    utf8Len (chunkBody ft ts shape outCols (run.map (·.1))) ≤ budget

lemma countedBytes_append (part : List (Row × ℕ)) (e : Row × ℕ) :
    countedBytes (part ++ [e]) = countedBytes part+(e.2+if part.isEmpty then 0 else 1) := by
  cases part with
  | nil => simp [countedBytes]
  | cons a part =>
    simp [countedBytes]
    omega

lemma addU64_ok {a b c : ℕ} (h : addU64 a b = .ok c) : c = a+b ∧ a+b < 2^64 := by
  rw [addU64] at h
  split at h
  · next hlt => exact ⟨(Except.ok.inj h).symm,hlt⟩
  · cases h

/-- The rows that a cursor still has, each with its size. -/
def Decodes (frame : ℕ) (items : List (Except String Json)) (encoded : List (Row × ℕ)) : Prop :=
  items.map (decodeRow ft ts frame) = encoded.map .ok

/-- What is left of a snapshot; a carried row may have a comma in its size. -/
def BackfillReader.Left (r : BackfillReader) (encoded : List (Row × ℕ)) : Prop :=
  match r.pending with
  | none => Decodes ft ts r.frame (r.stream.getD []) encoded
  | some (row,cost) => ∃ size rest, encoded = (row,size) :: rest ∧ size ≤ cost ∧ cost ≤ size+1 ∧
    Decodes ft ts r.frame (r.stream.getD []) rest

section
variable {ft ts} {budget frame : ℕ}

lemma Decodes.cons {item : Except String Json} {items : List (Except String Json)} {encoded : List (Row × ℕ)}
    (h : Decodes ft ts frame (item :: items) encoded) : ∃ e rest, encoded = e :: rest ∧
      decodeRow ft ts frame item = .ok e ∧ Decodes ft ts frame items rest := by
  cases encoded with
  | nil => cases h
  | cons e rest =>
    obtain ⟨he,hrest⟩ := List.cons.inj h
    exact ⟨e,rest,rfl,he,hrest⟩

/-- The rest of a chunk: what was in it, and some of the rows to come. -/
theorem fill_spec {items : List (Except String Json)} {encoded : List (Row × ℕ)} {part : List (Row × ℕ)}
    {body estimated : ℕ} {f : Filled} (hitems : Decodes ft ts frame items encoded)
    (hbody : countedBytes part ≤ body) (hfits : part = [] ∨ Fits budget part)
    (hbudget : body ≤ budget ∨ part.length ≤ 1)
    (h : fill ft ts budget frame items (part.map (·.1)) body estimated = .ok f) :
    ∃ more rest, encoded = more ++ rest ∧ f.chunk = (part ++ more).map (·.1) ∧
      (part ++ more = [] → rest = []) ∧ (part ++ more = [] ∨ Fits budget (part ++ more)) ∧
      match f.pending with
      | none => Decodes ft ts frame (f.stream.getD []) rest
      | some (row,cost) => ∃ size rest', rest = (row,size) :: rest' ∧ size ≤ cost ∧ cost ≤ size+1 ∧
        Decodes ft ts frame (f.stream.getD []) rest' := by
  induction items generalizing encoded part body estimated with
  | nil =>
    obtain rfl : encoded = [] := by simpa [Decodes] using hitems.symm
    obtain rfl := Except.ok.inj h
    exact ⟨[],[],rfl,by rw [List.append_nil],fun _ => rfl,by rwa [List.append_nil],hitems⟩
  | cons item items ih =>
    obtain ⟨⟨row,size⟩,rest,rfl,hdecode,hitems⟩ := hitems.cons
    rw [fill,hdecode] at h
    dsimp only [bind,Except.bind] at h
    split at h
    · cases h
    · next cost hcost =>
      obtain ⟨hcost,-⟩ := addU64_ok hcost
      have hsmall : size ≤ cost ∧ cost ≤ size+1 := by
        split at hcost <;> omega
      split at h
      · next hfull =>
        obtain rfl := Except.ok.inj h
        refine ⟨[],(row,size) :: rest,rfl,by rw [List.append_nil],fun hnil => ?_,by rwa [List.append_nil],
          size,rest,rfl,hsmall.1,hsmall.2,hitems⟩
        -- an empty chunk is not full
        rw [List.append_nil] at hnil
        simp [chunkIsFull,hnil] at hfull
      · next hroom =>
        split at h
        · cases h
        · next body' hsum =>
          obtain ⟨rfl,hlt⟩ := addU64_ok hsum
          have hempty : (part.map (·.1)).isEmpty = part.isEmpty := by cases part <;> rfl
          rw [hempty] at hcost
          have hgrown := countedBytes_append part (row,size)
          have hbudget' : body+cost ≤ budget ∨ (part ++ [(row,size)]).length ≤ 1 := by
            cases hp : part with
            | nil => exact .inr (by simp)
            | cons e es =>
              refine .inl ?_
              simp only [chunkIsFull,hp,List.map_cons,List.length_cons,Bool.and_eq_true,decide_eq_true_eq,
                not_and,not_lt] at hroom
              have hmin := hroom (by omega)
              omega
          have hfits' : Fits budget (part ++ [(row,size)]) := by
            rcases hbudget' with hle | hone
            · exact .inl (by omega)
            · refine .inr ?_
              rw [List.length_append,List.length_singleton] at hone ⊢
              omega
          have hmap : part.map (·.1) ++ [row] = (part ++ [(row,size)]).map (·.1) := by rw [List.map_append]; rfl
          rw [hmap] at h
          obtain ⟨more,rest',rfl,hchunk,-,hdone,hleft⟩ := ih hitems (by omega) (.inr hfits') hbudget' h
          rw [List.append_assoc] at hchunk hdone
          exact ⟨(row,size) :: more,rest',rfl,hchunk,fun hnil => by simp at hnil,hdone,hleft⟩

lemma opened_spec {r : BackfillReader} {chunk : List Row} {body : ℕ} {encoded : List (Row × ℕ)}
    (hleft : r.Left ft ts encoded) (h : r.opened = .ok (chunk,body)) : ∃ part rest, encoded = part ++ rest ∧
      chunk = part.map (·.1) ∧ countedBytes part ≤ body ∧ part.length ≤ 1 ∧
      Decodes ft ts r.frame (r.stream.getD []) rest := by
  rw [BackfillReader.opened] at h
  rw [BackfillReader.Left] at hleft
  cases hp : r.pending with
  | none =>
    rw [hp] at h hleft
    obtain ⟨rfl,rfl⟩ := Prod.mk.inj (Except.ok.inj h)
    exact ⟨[],encoded,rfl,rfl,le_rfl,Nat.zero_le _,hleft⟩
  | some p =>
    obtain ⟨row,cost⟩ := p
    rw [hp] at h hleft
    dsimp only at h
    obtain ⟨size,rest,rfl,hsize,-,hdecodes⟩ := hleft
    cases hsum : addU64 2 cost with
    | error e =>
      rw [hsum] at h
      cases h
    | ok sum =>
      rw [hsum] at h
      obtain ⟨rfl,rfl⟩ := Prod.mk.inj (Except.ok.inj h)
      obtain ⟨rfl,-⟩ := addU64_ok hsum
      refine ⟨[(row,size)],rest,rfl,rfl,?_,le_rfl,hdecodes⟩
      simpa [countedBytes] using hsize

/-- A chunk is the next rows of the snapshot, and there is none only when no row is left. -/
theorem nextChunk_takes {r r' : BackfillReader} {out : Option (List Row)} {encoded : List (Row × ℕ)}
    (hleft : r.Left ft ts encoded) (h : r.nextChunk ft ts = .ok (out,r')) :
    (out = none ∧ encoded = []) ∨ ∃ part rest, out = some (part.map (·.1)) ∧ encoded = part ++ rest ∧ part ≠ [] ∧
      Fits r.budget part ∧ r'.Left ft ts rest ∧ r'.budget = r.budget := by
  rw [BackfillReader.nextChunk] at h
  split at h
  · next hend =>
    rw [Bool.and_eq_true,Option.isNone_iff_eq_none,Option.isNone_iff_eq_none] at hend
    rw [BackfillReader.Left,hend.1,hend.2] at hleft
    obtain ⟨rfl,-⟩ := Prod.mk.inj (Except.ok.inj h)
    exact .inl ⟨rfl,by simpa [Decodes] using hleft.symm⟩
  · dsimp only [bind,Except.bind] at h
    split at h
    · cases h
    · next start hopened =>
      obtain ⟨part,rest,rfl,hchunk,hbody,hone,hdecodes⟩ := opened_spec hleft hopened
      have hfits : part = [] ∨ Fits r.budget part := by
        rcases Nat.lt_or_ge part.length 1 with hzero | hlen
        · exact .inl (List.eq_nil_of_length_eq_zero (by omega))
        · exact .inr (.inr (by omega))
      rw [hchunk] at h
      split at h
      · cases h
      · next f hf =>
        obtain ⟨more,rest',rfl,hout,hnone,hdone,hstate⟩ := fill_spec hdecodes hbody hfits (.inr hone) hf
        split at h
        · next hempty =>
          obtain ⟨rfl,-⟩ := Prod.mk.inj (Except.ok.inj h)
          rw [hout,List.isEmpty_iff,List.map_eq_nil_iff] at hempty
          have hrest := hnone hempty
          rw [← List.append_assoc,hempty,hrest]
          exact .inl ⟨rfl,rfl⟩
        · next hfull =>
          obtain ⟨rfl,rfl⟩ := Prod.mk.inj (Except.ok.inj h)
          rw [hout,List.isEmpty_iff,List.map_eq_nil_iff] at hfull
          rw [hout]
          exact .inr ⟨part ++ more,rest',rfl,(List.append_assoc _ _ _).symm,hfull,hdone.resolve_left hfull,hstate,rfl⟩

lemma fill_returns {items : List (Except String Json)} {encoded : List (Row × ℕ)} {chunk : List Row}
    {body estimated : ℕ} (hitems : Decodes ft ts frame items encoded)
    (hroom : body+(encoded.map fun e => e.2+1).sum < 2^64) :
    ∃ f, fill ft ts budget frame items chunk body estimated = .ok f := by
  induction items generalizing encoded chunk body estimated with
  | nil => exact ⟨_,rfl⟩
  | cons item items ih =>
    obtain ⟨⟨row,size⟩,rest,rfl,hdecode,hitems⟩ := hitems.cons
    rw [List.map_cons,List.sum_cons] at hroom
    have hcomma : (if chunk.isEmpty then 0 else 1) ≤ 1 := by split <;> omega
    rw [fill,hdecode]
    dsimp only [bind,Except.bind]
    generalize (if chunk.isEmpty then 0 else 1) = comma at hcomma ⊢
    rw [addU64,if_pos (by omega)]
    dsimp only
    split
    · exact ⟨_,rfl⟩
    · rw [addU64,if_pos (by omega)]
      exact ih hitems (by omega)

lemma nextChunk_returns {r : BackfillReader} {encoded : List (Row × ℕ)} (hleft : r.Left ft ts encoded)
    (hroom : 2+(encoded.map fun e => e.2+1).sum < 2^64) : ∃ out, r.nextChunk ft ts = .ok out := by
  rw [BackfillReader.nextChunk]
  split
  · exact ⟨_,rfl⟩
  · obtain ⟨chunk,body,rest,hopened,hdecodes,hroom⟩ : ∃ chunk body rest, r.opened = .ok (chunk,body) ∧
        Decodes ft ts r.frame (r.stream.getD []) rest ∧ body+(rest.map fun e => e.2+1).sum < 2^64 := by
      rw [BackfillReader.opened]
      rw [BackfillReader.Left] at hleft
      cases hp : r.pending with
      | none =>
        rw [hp] at hleft
        exact ⟨[],2,encoded,rfl,hleft,hroom⟩
      | some p =>
        obtain ⟨row,cost⟩ := p
        rw [hp] at hleft
        obtain ⟨size,rest,rfl,-,hcost,hdecodes⟩ := hleft
        rw [List.map_cons,List.sum_cons] at hroom
        refine ⟨[row],2+cost,rest,?_,hdecodes,by omega⟩
        dsimp only
        rw [addU64,if_pos (by omega)]
        rfl
    have hfill : ∃ f, fill ft ts r.budget _ _ chunk body r.estimatedBytes = .ok f := fill_returns hdecodes hroom
    obtain ⟨f,hf⟩ := hfill
    rw [hopened]
    dsimp only [bind,Except.bind]
    rw [hf]
    dsimp only
    split
    · exact ⟨_,rfl⟩
    · exact ⟨_,rfl⟩

/-- The chunks that are read cut the rows into parts that fit. -/
theorem reads_spec {r r' : BackfillReader} {chunks : List (List Row)} (h : r.Reads ft ts chunks r') :
    ∀ {encoded}, r.Left ft ts encoded → ∃ parts : List (List (Row × ℕ)), chunks = parts.map (·.map (·.1)) ∧
      parts.flatten = encoded ∧ ∀ part ∈ parts, part ≠ [] ∧ Fits r.budget part := by
  induction h with
  | done h =>
    intro encoded hleft
    rcases nextChunk_takes hleft h with ⟨-,rfl⟩ | ⟨part,rest,hout,-⟩
    · exact ⟨[],rfl,rfl,fun part hpart => by cases hpart⟩
    · cases hout
  | more h _ ih =>
    intro encoded hleft
    rcases nextChunk_takes hleft h with ⟨hout,-⟩ | ⟨part,rest,hout,rfl,hne,hfits,hleft',hbudget⟩
    · cases hout
    · obtain ⟨parts,rfl,rfl,hparts⟩ := ih hleft'
      rw [hbudget] at hparts
      refine ⟨part :: parts,?_,rfl,List.forall_mem_cons.mpr ⟨⟨hne,hfits⟩,hparts⟩⟩
      rw [Option.some.inj hout]
      rfl

/-- The loop over a snapshot ends. -/
theorem reads_ends {n : ℕ} : ∀ {r : BackfillReader} {encoded : List (Row × ℕ)}, encoded.length ≤ n →
    r.Left ft ts encoded → 2+(encoded.map fun e => e.2+1).sum < 2^64 →
      ∃ chunks r', r.Reads ft ts chunks r' := by
  induction n with
  | zero =>
    intro r encoded hlen hleft hroom
    obtain rfl := List.eq_nil_of_length_eq_zero (Nat.le_zero.mp hlen)
    obtain ⟨⟨out,r'⟩,h⟩ := nextChunk_returns hleft hroom
    rcases nextChunk_takes hleft h with ⟨rfl,-⟩ | ⟨part,rest,-,hnil,hne,-⟩
    · exact ⟨[],r',.done h⟩
    · exact absurd (List.append_eq_nil_iff.mp hnil.symm).1 hne
  | succ n ih =>
    intro r encoded hlen hleft hroom
    obtain ⟨⟨out,r'⟩,h⟩ := nextChunk_returns hleft hroom
    rcases nextChunk_takes hleft h with ⟨rfl,-⟩ | ⟨part,rest,rfl,rfl,hne,-,hleft',-⟩
    · exact ⟨[],r',.done h⟩
    · have hpos := List.length_pos_iff.mpr hne
      rw [List.length_append] at hlen
      rw [List.map_append,List.sum_append] at hroom
      obtain ⟨chunks,r'',hreads⟩ := ih (by omega) hleft' (by omega)
      exact ⟨_,r'',.more h hreads⟩

end

section
variable {ft ts} {shape : Row → Bool} {outCols : Option (List ℕ)} {budget : ℕ}

/-- The text of an upsert: its fixed part takes 58 bytes, of the 96 that are counted for it. -/
lemma utf8Len_upsertOf (r : Row) : utf8Len ((upsertOf ts none none outCols r).text ft) =
    58+utf8Len (quoted ts.table)+utf8Len (quoted ((ts.keyString r).toOption.getD ""))+
      utf8Len ((ts.rowToJsonCols r outCols).chars ft) := by
  have hheaders : utf8Len ((outputHeaders "upsert" none none).toJson.chars ft) = 22 := by
    have hfield : utf8Len (Json.fieldChars ft ("operation",.string "upsert")) = 20 := by
      rw [Json.fieldChars,Json.chars]
      decide
    rw [utf8Len_headers]
    simp [outputHeaders,fieldLen,hfield]
  have htype : utf8Len (quoted "type") = 6 := by decide
  have hkey : utf8Len (quoted "key") = 5 := by decide
  have hvalue : utf8Len (quoted "value") = 7 := by decide
  have hname : utf8Len (quoted "headers") = 9 := by decide
  have hcolon : Char.utf8Size ':' = 1 := by decide
  simp only [upsertOf,absoluteEnvelope,Envelope.text,Envelope.toJson,utf8Len_object (List.cons_ne_nil _ _),
    Option.map_some,Option.map_none,Option.toList_some,Option.toList_none,List.append_nil,List.singleton_append,
    List.map_cons,List.sum_cons,List.map_nil,List.sum_nil,Json.fieldChars,utf8Len_append,utf8Len_cons,
    hheaders,htype,hkey,hvalue,hname,hcolon]
  rw [Json.chars,Json.chars]
  omega

/-- A body is no longer than what is counted for it when no row is longer than what is counted for it. -/
lemma utf8Len_chunkBody_le {run : List (Row × ℕ)} (hne : run ≠ [])
    (h : ∀ e ∈ run, utf8Len ((upsertOf ts none none outCols e.1).text ft) ≤ e.2) :
    utf8Len (chunkBody ft ts shape outCols (run.map (·.1))) ≤ countedBytes run := by
  let size (r : Row) := utf8Len ((upsertOf ts none none outCols r).text ft)
  obtain ⟨kept,⟨rows,hperm,hsub⟩,hsent⟩ :=
    translateOutput_members ts ((run.map (·.1)).filter shape) none none outCols
  have hlen := List.length_pos_iff.mpr hne
  rw [chunkBody,hsent]
  by_cases hkept : kept = []
  · have hempty : utf8Len (bodyText ft []) = 2 := rfl
    rw [hkept,List.map_nil,hempty,countedBytes]
    omega
  · have hsum : (kept.map fun r => size r+1).sum ≤ (run.map (·.2)).sum+run.length := by
      calc (kept.map fun r => size r+1).sum
          = (rows.map fun r => size r+1).sum := (hperm.map _).symm.sum_eq
        _ ≤ ((run.map (·.1)).map fun r => size r+1).sum :=
            ((hsub.trans List.filter_sublist).map _).sum_le_sum fun _ _ => Nat.zero_le _
        _ = (run.map fun e => size e.1+1).sum := by rw [List.map_map]; rfl
        _ ≤ (run.map fun e => e.2+1).sum := List.sum_le_sum fun e he => Nat.succ_le_succ (h e he)
        _ = (run.map (·.2)).sum+run.length := by rw [List.sum_map_add,List.map_const',List.sum_replicate]; simp
    have hbody : utf8Len (bodyText ft (kept.map (upsertOf ts none none outCols))) =
        1+(kept.map fun r => size r+1).sum := by
      rw [utf8Len_bodyText (by simpa using hkept),TxnDrain.packed,List.map_map]
      rfl
    rw [hbody,countedBytes]
    omega

/-- So rows that are no longer than what is counted for them measure up. -/
lemma measuresUp_of_rows {encoded : List (Row × ℕ)}
    (h : ∀ e ∈ encoded, utf8Len ((upsertOf ts none none outCols e.1).text ft) ≤ e.2) :
    MeasuresUp ft ts shape outCols budget encoded := by
  intro run hrun hlen hcount
  have hne : run ≠ [] := fun hnil => by simp [hnil] at hlen
  exact (utf8Len_chunkBody_le hne fun e he => h e (hrun.subset he)).trans hcount

/-- Rows that are counted within the budget all go into the chunk. -/
lemma fill_all {frame : ℕ} {items : List (Except String Json)} {encoded : List (Row × ℕ)} (hlt : budget < 2^64) :
    ∀ part body estimated, Decodes ft ts frame items encoded → countedBytes (part ++ encoded) ≤ budget →
      body = countedBytes part → ∃ f, fill ft ts budget frame items (part.map (·.1)) body estimated = .ok f ∧
        f.chunk = (part ++ encoded).map (·.1) ∧ f.stream = none ∧ f.pending = none := by
  induction items generalizing encoded with
  | nil =>
    intro part body estimated hitems _ _
    obtain rfl : encoded = [] := by simpa [Decodes] using hitems.symm
    exact ⟨_,rfl,by rw [List.append_nil],rfl,rfl⟩
  | cons item items ih =>
    rintro part body estimated hitems hbudget rfl
    obtain ⟨⟨row,size⟩,rest,rfl,hdecode,hitems⟩ := hitems.cons
    have hgrown := countedBytes_append part (row,size)
    have hsplit : part ++ (row,size) :: rest = (part ++ [(row,size)]) ++ rest := by
      rw [List.append_assoc,List.singleton_append]
    rw [hsplit] at hbudget ⊢
    have hfits : countedBytes (part ++ [(row,size)]) ≤ budget := by
      refine le_trans ?_ hbudget
      simp only [countedBytes,List.map_append,List.sum_append,List.length_append]
      omega
    have hempty : (part.map (·.1)).isEmpty = part.isEmpty := by cases part <;> rfl
    have hroom : chunkIsFull (part.map (·.1)).length (countedBytes part) (size+if part.isEmpty then 0 else 1) budget =
        false := by
      rw [chunkIsFull,Bool.and_eq_false_iff]
      refine .inr (decide_eq_false ?_)
      omega
    rw [fill,hdecode]
    dsimp only [bind,Except.bind]
    rw [hempty,addU64,if_pos (by omega)]
    dsimp only
    rw [hroom,if_neg Bool.false_ne_true,addU64,if_pos (by omega)]
    dsimp only
    have hmap : part.map (·.1) ++ [row] = (part ++ [(row,size)]).map (·.1) := by rw [List.map_append]; rfl
    rw [hmap,← hgrown]
    exact ih _ _ _ hitems hbudget rfl

/-- A snapshot that is counted within the budget is read as one chunk. -/
lemma reads_one {items : List (Except String Json)} {encoded : List (Row × ℕ)} (hlt : budget < 2^64)
    (hrows : Decodes ft ts (backfillEnvelopeFraming+ts.table.utf8ByteSize) items encoded) (hne : encoded ≠ [])
    (hbudget : countedBytes encoded ≤ budget) :
    ∃ r', (BackfillReader.openSnapshot ts items budget).Reads ft ts [encoded.map (·.1)] r' := by
  obtain ⟨f,hf,hchunk,hstream,hpending⟩ :=
    fill_all hlt [] 2 0 hrows (by simpa using hbudget) rfl
  have hfull : f.chunk.isEmpty = false := by simpa [hchunk] using hne
  have hnext : (BackfillReader.openSnapshot ts items budget).nextChunk ft ts = .ok (some f.chunk,
      { BackfillReader.openSnapshot ts items budget with
        stream := none, pending := none, estimatedBytes := f.estimatedBytes,
        rows := 0+f.chunk.length, chunks := 0+1 }) := by
    rw [BackfillReader.nextChunk,BackfillReader.opened]
    simp only [BackfillReader.openSnapshot,Option.isNone_some,Bool.false_and,Option.getD_some,bind,Except.bind]
    rw [List.map_nil] at hf
    rw [hf]
    simp [hfull,hstream,hpending,pure,Except.pure]
  rw [List.nil_append] at hchunk
  rw [hchunk] at hnext
  exact ⟨_,.more hnext (.done rfl)⟩

/-- A run that does not measure up is, as a snapshot of its own, one chunk over the budget. -/
lemma reads_over {items : List (Except String Json)} {encoded : List (Row × ℕ)} (hlt : budget < 2^64)
    (hrows : Decodes ft ts (backfillEnvelopeFraming+ts.table.utf8ByteSize) items encoded)
    (h : ¬MeasuresUp ft ts shape outCols budget encoded) : ∃ part, part <:+: items ∧
      ∃ chunk r', (BackfillReader.openSnapshot ts part budget).Reads ft ts [chunk] r' ∧ 1 < chunk.length ∧
        budget < utf8Len (chunkBody ft ts shape outCols chunk) := by
  simp only [MeasuresUp,not_forall,not_le] at h
  obtain ⟨run,⟨before,after,rfl⟩,hlen,hcount,hover⟩ := h
  rw [Decodes,List.map_append,List.map_append,List.map_eq_append_iff] at hrows
  obtain ⟨front,last,rfl,hfront,-⟩ := hrows
  obtain ⟨first,part,rfl,-,hpart⟩ := List.map_eq_append_iff.mp hfront
  have hne : run ≠ [] := fun hnil => by simp [hnil] at hlen
  obtain ⟨r',hreads⟩ := reads_one hlt hpart hne hcount
  exact ⟨part,⟨first,last,rfl⟩,_,r',hreads,by rwa [List.length_map],hover⟩

/-- A snapshot is read in chunks that hold its rows in order, none of them empty, and the loop over it ends unless a
64-bit counter overflows. A chunk of more than one row stays within the budget as it is sent when the runs of the
snapshot measure up, as they do when no row is sent in more bytes than are counted for it; a run that does not is over
the budget in a snapshot of its own. -/
theorem backfill_chunks (shape : Row → Bool) (outCols : Option (List ℕ)) (budget : ℕ)
    {items : List (Except String Json)} {encoded : List (Row × ℕ)}
    (hrows : Decodes ft ts (backfillEnvelopeFraming+ts.table.utf8ByteSize) items encoded) :
    (∀ chunks r', (BackfillReader.openSnapshot ts items budget).Reads ft ts chunks r' →
      chunks.flatten = encoded.map (·.1) ∧ ∀ chunk ∈ chunks, chunk ≠ [] ∧
        (MeasuresUp ft ts shape outCols budget encoded →
          utf8Len (chunkBody ft ts shape outCols chunk) ≤ budget ∨ chunk.length = 1)) ∧
    (2+(encoded.map fun e => e.2+1).sum < 2^64 →
      ∃ chunks r', (BackfillReader.openSnapshot ts items budget).Reads ft ts chunks r') ∧
    ((∀ e ∈ encoded, utf8Len ((upsertOf ts none none outCols e.1).text ft) ≤ e.2) →
      MeasuresUp ft ts shape outCols budget encoded) ∧
    (budget < 2^64 → ¬MeasuresUp ft ts shape outCols budget encoded → ∃ part, part <:+: items ∧
      ∃ chunk r', (BackfillReader.openSnapshot ts part budget).Reads ft ts [chunk] r' ∧ 1 < chunk.length ∧
        budget < utf8Len (chunkBody ft ts shape outCols chunk)) := by
  refine ⟨fun chunks r' hreads => ?_,reads_ends le_rfl hrows,measuresUp_of_rows,fun hlt => reads_over hlt hrows⟩
  obtain ⟨parts,rfl,rfl,hparts⟩ := reads_spec hreads hrows
  refine ⟨List.map_flatten.symm,fun chunk hchunk => ?_⟩
  obtain ⟨part,hpart,rfl⟩ := List.mem_map.mp hchunk
  obtain ⟨hne,hfits⟩ := hparts part hpart
  refine ⟨by simpa using hne,fun hmeasure => ?_⟩
  rw [List.length_map]
  rcases hfits with hcount | hone
  · rcases Nat.lt_or_ge part.length 2 with hlen | hlen
    · have hpos := List.length_pos_iff.mpr hne
      exact .inr (by omega)
    · exact .inl (hmeasure part (List.infix_of_mem_flatten hpart) hlen hcount)
  · exact .inr hone

end

end

def sampleSnapshot : List (Except String Json) :=
  [.ok (.object [("id",.int 7),("level",.int 3)]),.ok (.object [("id",.int 8),("level",.int 3)])]

/-- Two rows of 121 bytes each, for which 244 bytes are one too few. -/
theorem sample_backfill_chunks : ∃ chunks r', (BackfillReader.openSnapshot TableSchema.sample sampleSnapshot 244).Reads
    FloatText.positional TableSchema.sample chunks r' ∧
    chunks.flatten = [⟨[.int 7,.int 3]⟩,⟨[.int 8,.int 3]⟩] ∧
    ∀ chunk ∈ chunks, chunk ≠ [] ∧
      (utf8Len (chunkBody .positional .sample (fun _ => true) none chunk) ≤ 244 ∨ chunk.length = 1) := by
  have hrows : Decodes FloatText.positional TableSchema.sample
      (backfillEnvelopeFraming+TableSchema.sample.table.utf8ByteSize) sampleSnapshot
      [(⟨[.int 7,.int 3]⟩,121),(⟨[.int 8,.int 3]⟩,121)] := by rfl
  obtain ⟨hcut,hends,hmeasures,-⟩ := backfill_chunks (fun _ => true) none 244 hrows
  obtain ⟨chunks,r',hreads⟩ := hends (by decide)
  obtain ⟨hflat,hall⟩ := hcut chunks r' hreads
  have hup := hmeasures (by decide +kernel)
  exact ⟨chunks,r',hreads,hflat,fun chunk hchunk => ⟨(hall chunk hchunk).1,(hall chunk hchunk).2 hup⟩⟩

/-- A table of counters. -/
def TableSchema.sampleWide : TableSchema where
  table := "t"
  columns := ("id",.int)::("abcdefghijklmnopqr".toList.map fun c => (c.toString,.int))
  pkCols := [0]
  names_nodup := by decide
  pk_ne_nil := TableSchema.sample.pk_ne_nil
  pk_lt := by decide

/-- A row whose counters are beyond the integers that a double carries. -/
def sampleCounters (id : ℤ) : Json :=
  .object (("id",.int id)::("abcdefghijklmnopqr".toList.map fun c => (c.toString,.int (2^53))))

def sampleCounterRow (id : ℤ) : Row := ⟨.int id::List.replicate 18 (.int (2^53))⟩

/-- An integer that a double cannot carry is read as a number and sent as a string, two quotes longer: two rows that
are counted for 971 bytes are sent in 975. -/
theorem backfill_over_budget : ¬∀ (ft : FloatText) (ts : TableSchema) (shape : Row → Bool) (outCols : Option (List ℕ))
    (budget : ℕ) (items : List (Except String Json)) (encoded : List (Row × ℕ)),
      Decodes ft ts (backfillEnvelopeFraming+ts.table.utf8ByteSize) items encoded →
      ∀ chunks r', (BackfillReader.openSnapshot ts items budget).Reads ft ts chunks r' →
        ∀ chunk ∈ chunks, utf8Len (chunkBody ft ts shape outCols chunk) ≤ budget ∨ chunk.length = 1 := by
  intro h
  have hrows : Decodes FloatText.positional TableSchema.sampleWide
      (backfillEnvelopeFraming+TableSchema.sampleWide.table.utf8ByteSize)
      [.ok (sampleCounters 1),.ok (sampleCounters 2)]
      [(sampleCounterRow 1,484),(sampleCounterRow 2,484)] := by
    unfold Decodes
    decide +kernel
  have hcount : countedBytes [(sampleCounterRow 1,484),(sampleCounterRow 2,484)] ≤ 971 := by decide
  obtain ⟨r',hreads⟩ := reads_one (by decide) hrows (by simp) hcount
  have hbytes : utf8Len (chunkBody .positional .sampleWide (fun _ => true) none
      [sampleCounterRow 1,sampleCounterRow 2]) = 975 := by decide +kernel
  rcases h _ _ (fun _ => true) none 971 _ _ hrows _ r' hreads _ (.head _) with hle | hone
  · exact absurd (hbytes.symm.le.trans hle) (by decide)
  · cases hone

end ElectricCircuits
