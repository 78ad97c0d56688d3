import ElectricCircuits.Aggregate
import ElectricCircuits.StreamFold
import ElectricCircuits.SubqIndex
import ElectricCircuits.Subquery.Feed
import ElectricCircuits.Template

/-! The emission of subquery shapes: each candidate row is evaluated where the inner sets stand now, matching
rows are upserted, and a delete goes out only for a key that the shape's feed holds. The feed of a shape is
the set of the keys on its stream. -/
namespace ElectricCircuits

/-- The commit of a live decision: its LSN and its transaction id. -/
abbrev CommitStamp := ℕ × Option ℕ

structure SubqueryShape where
  outerTable : String
  streamPath : String
  pred : CompiledPredicate
  outCols : Option (List ℕ)
  gate : SnapshotGate
  feedId : ℕ
  /-- The live decision last taken for a key while some query-back was under way. -/
  recent : AssocMap ℕ CommitStamp
  inflightQuerybacks : ℕ

/-- Where the candidates of an emission come from. -/
inductive EmissionSource where
  | live (stamp : CommitStamp)
  | replay (stamp : CommitStamp)
  | queryBack (gate : SnapshotGate)

def EmissionSource.liveStamp : EmissionSource → Option CommitStamp
  | .live stamp => some stamp
  | .replay stamp => some stamp
  | .queryBack _ => none

/-- The outer shapes of the registry, with the dictionary of keys, the feeds, and what was put on the lane of
each stream. -/
structure OuterTier where
  shapes : AssocMap String SubqueryShape
  shapeIndex : SubqueryShapeIndex
  pkDict : PkDict
  feedSets : FeedSet
  nextFeedId : ℕ
  streams : AssocMap String (List Envelope)

/-- What the candidates of one shape came to. -/
structure Judged where
  pkDict : PkDict
  feedSets : FeedSet
  members : List Row
  deletes : List String
  evaluated : List ℕ

def deleteEnvelopes (ts : TableSchema) (pks : List String) (txid : Option String) : List Envelope :=
  pks.map fun pk => ⟨ts.table,pk,none,none,outputHeaders "delete" txid none⟩

section
variable (ts : TableSchema) (ev : SubqueryEval)

/-- One candidate, with whether its row still exists: a member is upserted, and the key of any other row is
deleted if the feed held it. A decision that is recorded may give its key an id. -/
def Judged.add (pred : CompiledPredicate) (feedId : ℕ) (record : Bool) (a : Judged) (c : Row × Bool) : Judged :=
  match ts.keyString c.1 with
  | .error _ => a
  | .ok pk =>
    if c.2 && pred.matchesCtx c.1 ev then
      let m := a.pkDict.getOrInsert pk
      { pkDict := m.2
        feedSets := (a.feedSets.insert feedId m.1).2
        members := a.members ++ [c.1]
        deletes := a.deletes
        evaluated := if record then a.evaluated ++ [m.1] else a.evaluated }
    else
      match a.pkDict.get pk with
      | some id =>
        let r := a.feedSets.remove feedId id
        { a with
          feedSets := r.2
          deletes := if r.1 then a.deletes ++ [pk] else a.deletes
          evaluated := if record then a.evaluated ++ [id] else a.evaluated }
      | none =>
        if record then
          let m := a.pkDict.getOrInsert pk
          { a with pkDict := m.2, evaluated := a.evaluated ++ [m.1] }
        else a

namespace SubqueryShape

/-- A query-back leaves out the rows whose key was decided live by a commit that its read did not see. -/
def current (s : SubqueryShape) (dict : PkDict) (source : EmissionSource) (c : Row × Bool) : Bool :=
  match source with
  | .queryBack gate =>
    match ts.keyString c.1 with
    | .error _ => true
    | .ok pk =>
      match (dict.get pk).bind s.recent.get? with
      | some stamp => gate.shouldSkip stamp.1 stamp.2
      | none => true
  | _ => true

/-- Live decisions are recorded while a query-back is under way. -/
def records (s : SubqueryShape) (source : EmissionSource) : Bool :=
  decide (0 < s.inflightQuerybacks) && source.liveStamp.isSome

def recorded (s : SubqueryShape) (source : EmissionSource) (evaluated : List ℕ) : AssocMap ℕ CommitStamp :=
  match source.liveStamp with
  | some stamp => evaluated.foldl (fun m id => m.insert id stamp) s.recent
  | none => s.recent

end SubqueryShape

namespace OuterTier

def empty : OuterTier := ⟨.empty,.empty,.empty,.empty,1,.empty⟩

/-- What was put on the lane of a stream. -/
def stream (T : OuterTier) (path : String) : List Envelope := (T.streams.get? path).getD []

/-- The candidates of one shape, judged. -/
def judge (T : OuterTier) (s : SubqueryShape) (source : EmissionSource) (candidates : List (Row × Bool)) : Judged :=
  (candidates.filter (s.current ts T.pkDict source)).foldl
    (Judged.add ts ev s.pred s.feedId (s.records source)) ⟨T.pkDict,T.feedSets,[],[],[]⟩

def emissions (s : SubqueryShape) (a : Judged) (txid : Option String) : List Envelope :=
  translateOutput ts (a.members.map (·,1)) txid none s.outCols ++ deleteEnvelopes ts a.deletes txid

/-- Take over what the candidates of a shape came to, and put its envelopes on the lane in the same step. -/
def deliver (T : OuterTier) (shapeId : String) (s : SubqueryShape) (source : EmissionSource) (a : Judged)
    (envs : List Envelope) : OuterTier :=
  { T with
    shapes := T.shapes.insert shapeId { s with recent := s.recorded source a.evaluated }
    pkDict := a.pkDict
    feedSets := a.feedSets
    streams := T.streams.modify s.streamPath [] (· ++ envs) }

/-- The emission of one shape. -/
def emitForShape (txid : Option String) (source : EmissionSource) (T : OuterTier)
    (g : String × List (Row × Bool)) : OuterTier :=
  match T.shapes.get? g.1 with
  | none => T
  | some s =>
    let a := T.judge ts ev s source g.2
    T.deliver g.1 s source a (emissions ts s a txid)

/-- `emit_for_shapes`, over shapes with streams of their own. -/
def emitForShapes (T : OuterTier) (groups : List (String × List (Row × Bool))) (txid : Option String)
    (source : EmissionSource) : OuterTier := groups.foldl (emitForShape ts ev txid source) T

/-- The shapes that a change of the table is shown to: those the index names, or all when it is traced. -/
def visited (T : OuterTier) (traced : Bool) (delta : Delta) : List String :=
  if traced then (T.shapes.filter fun _ s => s.outerTable == ts.table).keys
  else T.shapeIndex.candidates ts.table delta

/-- `on_table_delta` for the outer shapes: the newest row of each key goes to every shape that is visited and
whose backfill did not see the commit. -/
def onTableDelta (T : OuterTier) (traced : Bool) (delta : Delta) (stamp : CommitStamp) (txid : Option String) :
    OuterTier :=
  let ids := (T.visited ts traced delta).filter fun id =>
    !(T.shapes.get? id).any (·.gate.shouldSkip stamp.1 stamp.2)
  T.emitForShapes ts ev (ids.map (·,(latestRowsByPk ts delta).values)) txid (.live stamp)

/-- The rows that a query-back read, emitted. -/
def queryBack (T : OuterTier) (shapeId : String) (rows : List Row) (gate : SnapshotGate) (txid : Option String) :
    OuterTier := T.emitForShapes ts ev [(shapeId,rows.map (·,true))] txid (.queryBack gate)

/-- A delta that arrived while the shape was created, replayed. -/
def replay (T : OuterTier) (shapeId : String) (delta : Delta) (stamp : CommitStamp) : OuterTier :=
  T.emitForShapes ts ev [(shapeId,(latestRowsByPk ts delta).values)] none (.replay stamp)

/-- The backfill of a shape, chunk by chunk. -/
def backfill (outCols : Option (List ℕ)) (chunks : List (List Row)) : List Envelope :=
  chunks.flatMap fun chunk => translateOutput ts (chunk.map (·,1)) none none outCols

/-- The keys of the backfilled rows. -/
def seededPks (chunks : List (List Row)) : List String :=
  chunks.flatten.map fun r => (ts.keyString r).toOption.getD ""

end OuterTier
end

namespace OuterTier

/-- Register a shape whose backfill is on its stream, and put the backfilled keys into its feed. -/
def install (T : OuterTier) (shapeId : String) (s : SubqueryShape) (pks : List String) : OuterTier :=
  let keys := pks.foldl (fun (k : PkDict × FeedSet) pk =>
    let m := k.1.getOrInsert pk
    (m.2,(k.2.insert T.nextFeedId m.1).2)) (T.pkDict,T.feedSets)
  { T with
    shapes := T.shapes.insert shapeId
      { s with feedId := T.nextFeedId, recent := .empty, inflightQuerybacks := 0 }
    shapeIndex := T.shapeIndex.insert shapeId s.outerTable s.pred
    pkDict := keys.1
    feedSets := keys.2
    nextFeedId := T.nextFeedId+1 }

/-- A create that succeeds: the backfill on a stream of its own, then the shape. -/
def create (T : OuterTier) (ts : TableSchema) (shapeId : String) (s : SubqueryShape) (chunks : List (List Row)) :
    OuterTier :=
  { T with streams := T.streams.insert s.streamPath (backfill ts s.outCols chunks) }.install shapeId s
    (seededPks ts chunks)

def dropShape (T : OuterTier) (shapeId : String) : OuterTier :=
  match T.shapes.get? shapeId with
  | none => T
  | some s => { T with
      shapes := T.shapes.erase shapeId
      shapeIndex := T.shapeIndex.remove shapeId
      feedSets := T.feedSets.dropFeed s.feedId }

def beginQueryback (T : OuterTier) (shapeId : String) : OuterTier :=
  match T.shapes.get? shapeId with
  | none => T
  | some s => { T with
      shapes := T.shapes.insert shapeId { s with inflightQuerybacks := s.inflightQuerybacks+1 } }

/-- The last query-back to end forgets the live decisions. -/
def endQueryback (T : OuterTier) (shapeId : String) : OuterTier :=
  match T.shapes.get? shapeId with
  | none => T
  | some s => { T with
      shapes := T.shapes.insert shapeId { s with
        inflightQuerybacks := s.inflightQuerybacks-1
        recent := if s.inflightQuerybacks-1 = 0 then .empty else s.recent } }

end OuterTier

/-- The key has an id, and the feed holds it. -/
def Held (d : PkDict) (f : FeedSet) (feedId : ℕ) (pk : String) : Prop :=
  ∃ id, d.get pk = some id ∧ f.contains feedId id = true

/-- The feeds hold no id that was not handed out. -/
def Minted (d : PkDict) (f : FeedSet) : Prop := ∀ feedId id, f.contains feedId id = true → id < d.len

section
variable {d : PkDict} {f : FeedSet} {feedId feedId' id : ℕ} {pk pk' : String}

lemma PkDict.lt_len (hlen : d.len ≤ 2^32) (h : d.get pk = some id) : id < d.len :=
  (List.getElem?_eq_some_iff.mp ((PkDict.get_iff hlen).mp h)).1

lemma Minted.mint (h : Minted d f) (pk : String) : Minted (d.mint pk).2 f :=
  fun feedId id hid => Nat.lt_of_lt_of_le (h feedId id hid) (d.len_le_mint pk)

/-- A key that is given an id is held nowhere by that. -/
lemma held_mint (h : Minted d f) (hlen : (d.mint pk).2.len ≤ 2^32) :
    Held (d.mint pk).2 f feedId pk' ↔ Held d f feedId pk' := by
  by_cases hpk : pk = pk'
  · subst hpk
    cases hget : d.get pk with
    | some id => rw [PkDict.mint_of_get hget]
    | none =>
      refine iff_of_false ?_ ?_
      · rintro ⟨id,hid,hheld⟩
        have hold : d.get pk ≠ none := by
          rw [PkDict.get_iff hlen] at hid
          have hlt := h feedId id hheld
          obtain ⟨pk'',hpk''⟩ : ∃ pk'', d.resolve id = some pk'' :=
            ⟨_,List.getElem?_eq_getElem (show id < d.reverse.length from hlt)⟩
          have hsame : (d.mint pk).2.resolve id = some pk'' := PkDict.resolve_mint hpk''
          rw [hid] at hsame
          obtain rfl := Option.some.inj hsame
          rw [(PkDict.get_iff ((d.len_le_mint pk).trans hlen)).mpr hpk'']
          exact Option.some_ne_none id
        exact hold hget
      · rintro ⟨id,hid,-⟩
        cases hget.symm.trans hid
  · simp only [Held,PkDict.get_mint_of_ne hpk]

lemma Minted.insert (h : Minted d f) (hlen : (d.mint pk).2.len ≤ 2^32) :
    Minted (d.mint pk).2 (f.insert feedId (d.mint pk).1).2 := by
  intro feedId' id hid
  rcases (FeedSet.contains_insert ..).mp hid with ⟨-,rfl⟩ | hid
  · exact PkDict.lt_len hlen (PkDict.get_mint_self d pk)
  · exact h.mint pk feedId' id hid

/-- After its id is put into a feed the key is held there, and every other key where it was. -/
lemma held_insert (h : Minted d f) (hlen : (d.mint pk).2.len ≤ 2^32) :
    Held (d.mint pk).2 (f.insert feedId (d.mint pk).1).2 feedId' pk' ↔
      feedId' = feedId ∧ pk' = pk ∨ Held d f feedId' pk' := by
  rw [← held_mint h hlen]
  simp only [Held,FeedSet.contains_insert]
  constructor
  · rintro ⟨id,hid,⟨hfeed,rfl⟩ | hheld⟩
    · exact .inl ⟨hfeed,PkDict.get_inj hlen hid (PkDict.get_mint_self d pk)⟩
    · exact .inr ⟨id,hid,hheld⟩
  · rintro (⟨hfeed,rfl⟩ | ⟨id,hid,hheld⟩)
    · exact ⟨_,PkDict.get_mint_self d pk',.inl ⟨hfeed,rfl⟩⟩
    · exact ⟨id,hid,.inr hheld⟩

lemma Minted.remove (h : Minted d f) (feedId id : ℕ) : Minted d (f.remove feedId id).2 :=
  fun feedId' id' hid => h feedId' id' ((FeedSet.contains_remove ..).mp hid).2

lemma held_remove (hlen : d.len ≤ 2^32) (hget : d.get pk = some id) :
    Held d (f.remove feedId id).2 feedId' pk' ↔ ¬(feedId' = feedId ∧ pk' = pk) ∧ Held d f feedId' pk' := by
  simp only [Held,FeedSet.contains_remove]
  constructor
  · rintro ⟨id',hid',hne,hheld⟩
    refine ⟨?_,id',hid',hheld⟩
    rintro ⟨hfeed,rfl⟩
    exact hne ⟨hfeed,Option.some.inj (hid'.symm.trans hget)⟩
  · rintro ⟨hne,id',hid',hheld⟩
    refine ⟨id',hid',?_,hheld⟩
    rintro ⟨hfeed,rfl⟩
    exact hne ⟨hfeed,PkDict.get_inj hlen hid' hget⟩

end

section
variable {ts : TableSchema} {ev : SubqueryEval} {pred : CompiledPredicate} {feedId : ℕ} {record : Bool}

/-- The row exists and matches. -/
def member (ev : SubqueryEval) (pred : CompiledPredicate) (c : Row × Bool) : Bool := c.2 && pred.matchesCtx c.1 ev

/-- No two candidates have one key. -/
def Distinct (ts : TableSchema) (cs : List (Row × Bool)) : Prop :=
  cs.Pairwise fun c d => ∀ pk, ts.keyString c.1 = .ok pk → ts.keyString d.1 ≠ .ok pk

/-- Rows of a table that have keys of their own. -/
lemma Distinct.of_nodup {rows : List Row} (hrows : ∀ r ∈ rows, ts.IsRow r) (hnodup : (rows.map ts.name).Nodup) :
    Distinct ts (rows.map (·,true)) := by
  refine List.pairwise_map.mpr ((List.pairwise_map.mp hnodup).imp_of_mem ?_)
  intro a b ha hb hne pk hpk hpk'
  rw [TableSchema.keyString_eq (hrows a ha)] at hpk
  rw [TableSchema.keyString_eq (hrows b hb)] at hpk'
  exact hne (Except.ok.inj (hpk.trans hpk'.symm))

/-- What judging candidates comes to: the keys of the members are held and those of the others are not, a
held key that is no member's is deleted, and no other key is concerned. -/
structure Outcome (ts : TableSchema) (ev : SubqueryEval) (pred : CompiledPredicate) (feedId : ℕ) (record : Bool)
    (cs : List (Row × Bool)) (a b : Judged) : Prop where
  len : a.pkDict.len ≤ b.pkDict.len
  minted : Minted b.pkDict b.feedSets
  grows : ∀ pk id, a.pkDict.get pk = some id → b.pkDict.get pk = some id
  held : ∀ c ∈ cs, ∀ pk, ts.keyString c.1 = .ok pk →
    (Held b.pkDict b.feedSets feedId pk ↔ member ev pred c = true)
  frame : ∀ feedId' pk, (feedId' = feedId → ∀ c ∈ cs, ts.keyString c.1 ≠ .ok pk) →
    (Held b.pkDict b.feedSets feedId' pk ↔ Held a.pkDict a.feedSets feedId' pk)
  members : b.members = a.members ++
    (cs.filter fun c => (ts.keyString c.1).toOption.isSome && member ev pred c).map (·.1)
  deletes : ∃ pks, b.deletes = a.deletes ++ pks ∧ pks.Nodup ∧ ∀ pk, pk ∈ pks ↔
    Held a.pkDict a.feedSets feedId pk ∧ ∃ c ∈ cs, ts.keyString c.1 = .ok pk ∧ member ev pred c = false
  evaluated : ∀ id, id ∈ b.evaluated ↔ id ∈ a.evaluated ∨ record = true ∧
    ∃ c ∈ cs, ∃ pk, ts.keyString c.1 = .ok pk ∧ b.pkDict.get pk = some id
  known : record = true → ∀ c ∈ cs, ∀ pk, ts.keyString c.1 = .ok pk → b.pkDict.get pk ≠ none

lemma len_add (a : Judged) (x : Row × Bool) : a.pkDict.len ≤ (a.add ts ev pred feedId record x).pkDict.len := by
  cases hkey : ts.keyString x.1 with
  | error e =>
    simp only [Judged.add,hkey]
    exact Nat.le_refl _
  | ok pk =>
    have hle := PkDict.getOrInsert_eq a.pkDict pk ▸ a.pkDict.len_le_mint pk
    cases hm : (x.2 && pred.matchesCtx x.1 ev) with
    | true =>
      simp only [Judged.add,hkey,hm,if_true]
      exact hle
    | false =>
      simp only [Judged.add,hkey,hm,Bool.false_eq_true,if_false]
      cases a.pkDict.get pk with
      | some id => exact Nat.le_refl _
      | none => cases record <;> simp [hle]

lemma len_foldl (cs : List (Row × Bool)) (a : Judged) :
    a.pkDict.len ≤ (cs.foldl (Judged.add ts ev pred feedId record) a).pkDict.len := by
  induction cs generalizing a with
  | nil => exact Nat.le_refl _
  | cons x cs ih => exact (len_add a x).trans (ih _)

namespace Outcome
variable {cs cs' : List (Row × Bool)} {a b c : Judged}

lemma refl (h : Minted a.pkDict a.feedSets) : Outcome ts ev pred feedId record [] a a where
  len := Nat.le_refl _
  minted := h
  grows _ _ h := h
  held := by simp
  frame _ _ _ := Iff.rfl
  members := by simp
  deletes := ⟨[],by simp,List.nodup_nil,by simp⟩
  evaluated := by simp
  known := by simp

/-- One batch after another, when they have no key in common. -/
lemma trans (h : Outcome ts ev pred feedId record cs a b) (h' : Outcome ts ev pred feedId record cs' b c)
    (hdisjoint : ∀ x ∈ cs, ∀ y ∈ cs', ∀ pk, ts.keyString x.1 = .ok pk → ts.keyString y.1 ≠ .ok pk) :
    Outcome ts ev pred feedId record (cs ++ cs') a c where
  len := h.len.trans h'.len
  minted := h'.minted
  grows pk id hid := h'.grows pk id (h.grows pk id hid)
  held x hx pk hpk := by
    rcases List.mem_append.mp hx with hx | hx
    · rw [h'.frame feedId pk fun _ y hy => hdisjoint x hx y hy pk hpk]
      exact h.held x hx pk hpk
    · exact h'.held x hx pk hpk
  frame feedId' pk hpk := by
    rw [h'.frame feedId' pk fun heq x hx => hpk heq x (List.mem_append_right _ hx)]
    exact h.frame feedId' pk fun heq x hx => hpk heq x (List.mem_append_left _ hx)
  members := by rw [h'.members,h.members,List.filter_append,List.map_append,List.append_assoc]
  deletes := by
    obtain ⟨pks,hb,hnodup,hpks⟩ := h.deletes
    obtain ⟨pks',hc,hnodup',hpks'⟩ := h'.deletes
    refine ⟨pks ++ pks',by rw [hc,hb,List.append_assoc],?_,fun pk => ?_⟩
    · refine List.nodup_append.mpr ⟨hnodup,hnodup',?_⟩
      rintro pk hpk _ hpk' rfl
      obtain ⟨-,x,hx,hxpk,-⟩ := (hpks pk).mp hpk
      obtain ⟨-,y,hy,hypk,-⟩ := (hpks' pk).mp hpk'
      exact hdisjoint x hx y hy pk hxpk hypk
    · rw [List.mem_append,hpks,hpks']
      simp only [List.mem_append,or_and_right,exists_or,and_or_left]
      refine or_congr_right (and_congr_left ?_)
      rintro ⟨y,hy,hpk,-⟩
      exact h.frame feedId pk fun _ x hx hxpk => hdisjoint x hx y hy pk hxpk hpk
  evaluated id := by
    rw [h'.evaluated,h.evaluated,or_assoc]
    refine or_congr_right ?_
    simp only [List.mem_append,or_and_right,exists_or,and_or_left]
    refine or_congr_left (and_congr_right fun hrecord => exists_congr fun x => and_congr_right fun hx =>
      exists_congr fun pk => and_congr_right fun hpk => ?_)
    -- the key of an evaluated row has had its id since then
    obtain ⟨id',hid'⟩ := Option.ne_none_iff_exists'.mp (h.known hrecord x hx pk hpk)
    rw [hid',h'.grows pk id' hid']
  known hrecord x hx pk hpk := by
    rcases List.mem_append.mp hx with hx | hx
    · obtain ⟨id,hid⟩ := Option.ne_none_iff_exists'.mp (h.known hrecord x hx pk hpk)
      rw [h'.grows pk id hid]
      exact Option.some_ne_none id
    · exact h'.known hrecord x hx pk hpk

/-- One candidate, by what becomes of its key. -/
lemma single {x : Row × Bool} {pk : String} (hkey : ts.keyString x.1 = .ok pk) (hlen : a.pkDict.len ≤ b.pkDict.len)
    (hminted : Minted b.pkDict b.feedSets) (hgrows : ∀ pk id, a.pkDict.get pk = some id → b.pkDict.get pk = some id)
    (hheld : Held b.pkDict b.feedSets feedId pk ↔ member ev pred x = true)
    (hframe : ∀ feedId' pk', ¬(feedId' = feedId ∧ pk' = pk) →
      (Held b.pkDict b.feedSets feedId' pk' ↔ Held a.pkDict a.feedSets feedId' pk'))
    (hmembers : b.members = a.members ++ if member ev pred x then [x.1] else [])
    (hdeletes : (Held a.pkDict a.feedSets feedId pk ∧ member ev pred x = false) ∧ b.deletes = a.deletes ++ [pk] ∨
      ¬(Held a.pkDict a.feedSets feedId pk ∧ member ev pred x = false) ∧ b.deletes = a.deletes)
    (hevaluated : ∀ id, id ∈ b.evaluated ↔ id ∈ a.evaluated ∨ record = true ∧ b.pkDict.get pk = some id)
    (hknown : record = true → b.pkDict.get pk ≠ none) : Outcome ts ev pred feedId record [x] a b where
  len := hlen
  minted := hminted
  grows := hgrows
  held y hy pk' hpk' := by
    obtain rfl := List.mem_singleton.mp hy
    obtain rfl := Except.ok.inj (hkey.symm.trans hpk')
    exact hheld
  frame feedId' pk' hpk' := by
    refine hframe feedId' pk' ?_
    rintro ⟨hfeed,rfl⟩
    exact hpk' hfeed x (List.mem_singleton_self x) hkey
  members := by
    rw [hmembers]
    cases hm : member ev pred x <;> simp [hkey,hm,Except.toOption]
  deletes := by
    simp only [List.mem_singleton,exists_eq_left,hkey,Except.ok.injEq]
    obtain ⟨⟨hh,hm⟩,hb⟩ | ⟨hnot,hb⟩ := hdeletes
    · refine ⟨[pk],hb,List.nodup_singleton pk,fun pk' => ?_⟩
      rw [List.mem_singleton]
      refine ⟨?_,fun h => h.2.1.symm⟩
      rintro rfl
      exact ⟨hh,rfl,hm⟩
    · refine ⟨[],by rw [hb,List.append_nil],List.nodup_nil,fun pk' => iff_of_false List.not_mem_nil ?_⟩
      rintro ⟨hh,rfl,hm⟩
      exact hnot ⟨hh,hm⟩
  evaluated id := by
    rw [hevaluated]
    simp only [List.mem_singleton,exists_eq_left,hkey,Except.ok.injEq,exists_eq_left']
  known hrecord y hy pk' hpk' := by
    obtain rfl := List.mem_singleton.mp hy
    obtain rfl := Except.ok.inj (hkey.symm.trans hpk')
    exact hknown hrecord

/-- A member's key gets an id, and the feed has it. -/
lemma add_member {x : Row × Bool} {pk : String} (h : Minted a.pkDict a.feedSets) (hkey : ts.keyString x.1 = .ok pk)
    (hm : member ev pred x = true) (hlen : (a.add ts ev pred feedId record x).pkDict.len ≤ 2^32) :
    Outcome ts ev pred feedId record [x] a (a.add ts ev pred feedId record x) := by
  have hmatch : (x.2 && pred.matchesCtx x.1 ev) = true := hm
  have hadd : a.add ts ev pred feedId record x =
      ⟨(a.pkDict.mint pk).2,(a.feedSets.insert feedId (a.pkDict.mint pk).1).2,a.members ++ [x.1],
        a.deletes,if record then a.evaluated ++ [(a.pkDict.mint pk).1] else a.evaluated⟩ := by
    simp only [Judged.add,hkey,hmatch,if_true,PkDict.getOrInsert_eq]
  rw [hadd] at hlen ⊢
  have hget := PkDict.get_mint_self a.pkDict pk
  refine single hkey (a.pkDict.len_le_mint pk) (h.insert hlen) (fun _ _ => PkDict.get_mint)
    (iff_of_true ((held_insert h hlen).mpr (.inl ⟨rfl,rfl⟩)) hm)
    (fun _ _ hother => (held_insert h hlen).trans (or_iff_right hother)) (by rw [if_pos hm])
    (.inr ⟨fun hcase => Bool.false_ne_true (hcase.2.symm.trans hm),rfl⟩) (fun id => ?_)
    (fun _ => by rw [hget]; exact Option.some_ne_none _)
  cases record <;> simp [hget,eq_comm]

/-- A key that is no member's leaves the feed, if it was there. -/
lemma add_known {x : Row × Bool} {pk : String} {id : ℕ} (h : Minted a.pkDict a.feedSets)
    (hkey : ts.keyString x.1 = .ok pk) (hm : member ev pred x = false) (hget : a.pkDict.get pk = some id)
    (hlen : (a.add ts ev pred feedId record x).pkDict.len ≤ 2^32) :
    Outcome ts ev pred feedId record [x] a (a.add ts ev pred feedId record x) := by
  have hmatch : (x.2 && pred.matchesCtx x.1 ev) = false := hm
  have hadd : a.add ts ev pred feedId record x =
      ⟨a.pkDict,(a.feedSets.remove feedId id).2,a.members,
        if a.feedSets.contains feedId id then a.deletes ++ [pk] else a.deletes,
        if record then a.evaluated ++ [id] else a.evaluated⟩ := by
    simp only [Judged.add,hkey,hmatch,hget,FeedSet.remove_fst,Bool.false_eq_true,if_false]
  rw [hadd] at hlen ⊢
  have hheld : Held a.pkDict a.feedSets feedId pk ↔ a.feedSets.contains feedId id = true := by
    simp [Held,hget]
  refine single hkey (Nat.le_refl _) (h.remove feedId id) (fun _ _ h => h)
    (iff_of_false (fun hh => ((held_remove hlen hget).mp hh).1 ⟨rfl,rfl⟩) (by simp [hm]))
    (fun _ _ hother => (held_remove hlen hget).trans (and_iff_right hother)) (by simp [hm]) ?_ (fun id' => ?_)
    (fun _ => by rw [hget]; exact Option.some_ne_none id)
  · dsimp only
    split_ifs with hc
    · exact .inl ⟨⟨hheld.mpr hc,hm⟩,rfl⟩
    · exact .inr ⟨fun hcase => hc (hheld.mp hcase.1),rfl⟩
  · cases record <;> simp [hget,eq_comm]

/-- A key that never came up is in no feed; it gets an id if its evaluation is recorded. -/
lemma add_unknown {x : Row × Bool} {pk : String} (h : Minted a.pkDict a.feedSets) (hkey : ts.keyString x.1 = .ok pk)
    (hm : member ev pred x = false) (hget : a.pkDict.get pk = none)
    (hlen : (a.add ts ev pred feedId record x).pkDict.len ≤ 2^32) :
    Outcome ts ev pred feedId record [x] a (a.add ts ev pred feedId record x) := by
  have hmatch : (x.2 && pred.matchesCtx x.1 ev) = false := hm
  have hnot : ¬Held a.pkDict a.feedSets feedId pk := by simp [Held,hget]
  cases record with
  | true =>
    have hadd : a.add ts ev pred feedId true x = { a with
        pkDict := (a.pkDict.mint pk).2, evaluated := a.evaluated ++ [(a.pkDict.mint pk).1] } := by
      simp only [Judged.add,hkey,hmatch,hget,PkDict.getOrInsert_eq,Bool.false_eq_true,if_false,if_true]
    rw [hadd] at hlen ⊢
    have hget' := PkDict.get_mint_self a.pkDict pk
    refine single hkey (a.pkDict.len_le_mint pk) (h.mint pk) (fun _ _ => PkDict.get_mint)
      (iff_of_false (fun hh => hnot ((held_mint h hlen).mp hh)) (by simp [hm])) (fun _ _ _ => held_mint h hlen)
      (by simp [hm]) (.inr ⟨fun hcase => hnot hcase.1,rfl⟩) (fun id => by simp [hget',eq_comm])
      (fun _ => by rw [hget']; exact Option.some_ne_none _)
  | false =>
    have hadd : a.add ts ev pred feedId false x = a := by
      simp only [Judged.add,hkey,hmatch,hget,Bool.false_eq_true,if_false]
    rw [hadd] at hlen ⊢
    exact single hkey (Nat.le_refl _) h (fun _ _ h => h) (iff_of_false hnot (by simp [hm])) (fun _ _ _ => Iff.rfl)
      (by simp [hm]) (.inr ⟨fun hcase => hnot hcase.1,rfl⟩) (by simp) (by simp)

/-- One candidate. A row without a key is passed over. -/
lemma add (x : Row × Bool) (h : Minted a.pkDict a.feedSets)
    (hlen : (a.add ts ev pred feedId record x).pkDict.len ≤ 2^32) :
    Outcome ts ev pred feedId record [x] a (a.add ts ev pred feedId record x) := by
  cases hkey : ts.keyString x.1 with
  | error e =>
    have hadd : a.add ts ev pred feedId record x = a := by simp only [Judged.add,hkey]
    rw [hadd]
    exact ⟨Nat.le_refl _,h,fun _ _ h => h,by simp [hkey],fun _ _ _ => Iff.rfl,by simp [hkey,Except.toOption],
      ⟨[],by simp,List.nodup_nil,by simp [hkey]⟩,by simp [hkey],by simp [hkey]⟩
  | ok pk =>
    cases hm : member ev pred x with
    | true => exact add_member h hkey hm hlen
    | false =>
      cases hget : a.pkDict.get pk with
      | some id => exact add_known h hkey hm hget hlen
      | none => exact add_unknown h hkey hm hget hlen

/-- Judging candidates of distinct keys, one after the other. -/
theorem foldl (cs : List (Row × Bool)) : ∀ a : Judged, Distinct ts cs → Minted a.pkDict a.feedSets →
    (cs.foldl (Judged.add ts ev pred feedId record) a).pkDict.len ≤ 2^32 →
    Outcome ts ev pred feedId record cs a (cs.foldl (Judged.add ts ev pred feedId record) a) := by
  induction cs with
  | nil => exact fun a _ h _ => refl h
  | cons x cs ih =>
    intro a hdistinct h hlen
    obtain ⟨hx,hcs⟩ := List.pairwise_cons.mp hdistinct
    have hgrow := @len_foldl ts ev pred feedId record cs (a.add ts ev pred feedId record x)
    have hfirst := add x h (hgrow.trans hlen)
    refine hfirst.trans (ih _ hcs hfirst.minted hlen) ?_
    intro y hy z hz pk hpk
    obtain rfl := List.mem_singleton.mp hy
    exact hx z hz pk hpk

end Outcome
end
end ElectricCircuits
