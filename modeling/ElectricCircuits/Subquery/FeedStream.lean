import ElectricCircuits.Subquery.Emission

/-! The feed of a subquery shape is the content of its stream, in every state that creates, deltas,
query-backs and drops lead to: a key is held exactly when folding the stream leaves it there, and no delete
is put on a stream for a key that is not there. -/
namespace ElectricCircuits

/-- Every delete of the envelopes finds its key. -/
def DeletesFind (F : String → Option Json) : List Envelope → Prop
  | [] => True
  | e :: es => (e.headers.operation = "delete" → (F e.key).isSome = true) ∧ DeletesFind (foldEnvelope F e) es

lemma deletesFind_append (F : String → Option Json) (es es' : List Envelope) :
    DeletesFind F (es ++ es') ↔ DeletesFind F es ∧ DeletesFind (foldStream F es) es' := by
  induction es generalizing F with
  | nil => simp [DeletesFind]
  | cons e es ih => simp [DeletesFind,ih,foldStream,and_assoc]

lemma deletesFind_of_upserts {es : List Envelope} (h : ∀ e ∈ es, e.headers.operation ≠ "delete")
    (F : String → Option Json) : DeletesFind F es := by
  induction es generalizing F with
  | nil => trivial
  | cons e es ih =>
    obtain ⟨he,hes⟩ := List.forall_mem_cons.mp h
    exact ⟨fun hop => absurd hop he,ih hes _⟩

section
variable (ts : TableSchema)

/-- The upserts of members: the last one of a key stands. -/
lemma foldStream_members (F : String → Option Json) (rows : List Row) (txid lsn : Option String)
    (outCols : Option (List ℕ)) (k : String) :
    foldStream F (translateOutput ts (rows.map (·,1)) txid lsn outCols) k =
      match rows.reverse.find? fun r => (ts.keyString r).toOption == some k with
      | some r => some (ts.rowToJsonCols r outCols)
      | none => F k := by
  obtain ⟨hpos,hneg⟩ := Legs.members ts rows k
  rw [foldStream_translateOutput,hpos,hneg]
  cases rows.reverse.find? fun r => (ts.keyString r).toOption == some k <;> rfl

lemma not_delete_members {rows : List Row} {txid lsn : Option String} {outCols : Option (List ℕ)} :
    ∀ e ∈ translateOutput ts (rows.map (·,1)) txid lsn outCols, e.headers.operation ≠ "delete" := by
  intro e he hop
  have hdelete := (delete_mem_translateOutput he hop).1
  rw [(Legs.members ts rows e.key).2] at hdelete
  cases hdelete

lemma foldStream_deletes (F : String → Option Json) (pks : List String) (txid : Option String) (k : String) :
    foldStream F (deleteEnvelopes ts pks txid) k = if k ∈ pks then none else F k := by
  rw [deleteEnvelopes,← List.filterMap_eq_map,foldStream_filterMap]
  · simp [outputHeaders]
  · intro k e he
    obtain rfl := Option.some.inj he
    rfl

lemma deletesFind_deletes {F : String → Option Json} {pks : List String} (hnodup : pks.Nodup)
    (h : ∀ pk ∈ pks, (F pk).isSome = true) (txid : Option String) :
    DeletesFind F (deleteEnvelopes ts pks txid) := by
  induction pks generalizing F with
  | nil => trivial
  | cons pk pks ih =>
    obtain ⟨hpk,hpks⟩ := List.forall_mem_cons.mp h
    obtain ⟨hnot,hnodup⟩ := List.nodup_cons.mp hnodup
    refine ⟨fun _ => hpk,ih hnodup fun pk' hpk' => ?_⟩
    rw [foldEnvelope,if_neg]
    · exact hpks pk' hpk'
    · rintro rfl
      exact hnot hpk'

end

section
variable {ts : TableSchema} {ev : SubqueryEval} {s : SubqueryShape} {source : EmissionSource}
  {cs : List (Row × Bool)} {F : String → Option Json} {pk : String}

lemma toOption_eq_some {r : Except String String} {pk : String} : r.toOption = some pk ↔ r = .ok pk := by
  cases r <;> simp [Except.toOption]

/-- One candidate stands for a key, among those of distinct keys. -/
lemma Distinct.eq_of_key (h : Distinct ts cs) {c d : Row × Bool} (hc : c ∈ cs) (hd : d ∈ cs)
    (hcpk : ts.keyString c.1 = .ok pk) (hdpk : ts.keyString d.1 = .ok pk) : c = d := by
  induction cs with
  | nil => cases hc
  | cons x cs ih =>
    obtain ⟨hx,hcs⟩ := List.pairwise_cons.mp h
    rcases List.mem_cons.mp hc with rfl | hc'
    · rcases List.mem_cons.mp hd with rfl | hd'
      · rfl
      · exact absurd hdpk (hx d hd' pk hcpk)
    · rcases List.mem_cons.mp hd with rfl | hd'
      · exact absurd hcpk (hx c hc' pk hdpk)
      · exact ih hcs hc' hd'

/-- What an emission has judged, from the shape as it was. -/
def Judges (ts : TableSchema) (ev : SubqueryEval) (T : OuterTier) (s : SubqueryShape) (source : EmissionSource)
    (cs : List (Row × Bool)) (b : Judged) : Prop :=
  Outcome ts ev s.pred s.feedId (s.records source) cs ⟨T.pkDict,T.feedSets,[],[],[]⟩ b

variable {T : OuterTier} {b : Judged}

/-- The rows that an emission upserts. -/
lemma Judges.find_member (h : Judges ts ev T s source cs b) (hcs : Distinct ts cs) :
    (∀ c ∈ cs, ts.keyString c.1 = .ok pk →
      (b.members.reverse.find? fun r => (ts.keyString r).toOption == some pk) =
        if member ev s.pred c then some c.1 else none) ∧
    ((∀ c ∈ cs, ts.keyString c.1 ≠ .ok pk) →
      (b.members.reverse.find? fun r => (ts.keyString r).toOption == some pk) = none) := by
  have hmem : ∀ r, r ∈ b.members.reverse ∧ ((ts.keyString r).toOption == some pk) = true ↔
      ∃ c ∈ cs, ts.keyString c.1 = .ok pk ∧ member ev s.pred c = true ∧ c.1 = r := by
    intro r
    simp only [h.members,List.nil_append,List.mem_reverse,List.mem_map,List.mem_filter,beq_iff_eq,
      toOption_eq_some,Bool.and_eq_true]
    constructor
    · rintro ⟨⟨c,⟨hc,-,hm⟩,rfl⟩,hpk⟩
      exact ⟨c,hc,hpk,hm,rfl⟩
    · rintro ⟨c,hc,hpk,hm,rfl⟩
      exact ⟨⟨c,⟨hc,by rw [hpk]; rfl,hm⟩,rfl⟩,hpk⟩
  constructor
  · intro c hc hpk
    cases hfind : b.members.reverse.find? fun r => (ts.keyString r).toOption == some pk with
    | none =>
      rw [List.find?_eq_none] at hfind
      rw [if_neg]
      intro hm
      obtain ⟨hr,hkey⟩ := (hmem c.1).mpr ⟨c,hc,hpk,hm,rfl⟩
      exact hfind c.1 hr hkey
    | some r =>
      have hkey : ((ts.keyString r).toOption == some pk) = true := by simpa using List.find?_some hfind
      obtain ⟨d,hd,hdpk,hm,rfl⟩ := (hmem r).mp ⟨List.mem_of_find?_eq_some hfind,hkey⟩
      obtain rfl := hcs.eq_of_key hc hd hpk hdpk
      rw [if_pos hm]
  · intro hnone
    rw [List.find?_eq_none]
    intro r hr hkey
    obtain ⟨c,hc,hpk,-⟩ := (hmem r).mp ⟨hr,hkey⟩
    exact hnone c hc hpk

/-- What an emission does to a stream that holds what the feed holds: the key of a candidate shows its row if
that is a member, and nothing otherwise; other keys stay. -/
theorem Judges.foldStream_emissions (h : Judges ts ev T s source cs b) (hcs : Distinct ts cs)
    (hF : ∀ pk, Held T.pkDict T.feedSets s.feedId pk ↔ (F pk).isSome = true) (txid : Option String) :
    (∀ c ∈ cs, ts.keyString c.1 = .ok pk → foldStream F (OuterTier.emissions ts s b txid) pk =
      if member ev s.pred c then some (ts.rowToJsonCols c.1 s.outCols) else none) ∧
    ((∀ c ∈ cs, ts.keyString c.1 ≠ .ok pk) → foldStream F (OuterTier.emissions ts s b txid) pk = F pk) := by
  obtain ⟨pks,hdeletes,-,hpks⟩ := h.deletes
  rw [List.nil_append] at hdeletes
  obtain ⟨hfind,hnone⟩ : (∀ c ∈ cs, ts.keyString c.1 = .ok pk → _) ∧ ((∀ c ∈ cs, ts.keyString c.1 ≠ .ok pk) → _) :=
    h.find_member hcs
  rw [OuterTier.emissions,foldStream_append,foldStream_deletes,foldStream_members,hdeletes]
  constructor
  · intro c hc hpk
    have hdeleted : pk ∈ pks ↔ Held T.pkDict T.feedSets s.feedId pk ∧ member ev s.pred c = false := by
      rw [hpks]
      refine and_congr_right fun _ => ⟨?_,fun hm => ⟨c,hc,hpk,hm⟩⟩
      rintro ⟨d,hd,hdpk,hm⟩
      rwa [hcs.eq_of_key hc hd hpk hdpk]
    rw [hfind c hc hpk]
    cases hm : member ev s.pred c with
    | true => simp [hdeleted,hm]
    | false =>
      simp only [hdeleted,hm,and_true,hF,Bool.false_eq_true,if_false]
      cases F pk <;> simp
  · intro hno
    have hkept : pk ∉ pks := by
      rw [hpks]
      rintro ⟨-,c,hc,hpk,-⟩
      exact hno c hc hpk
    rw [hnone hno,if_neg hkept]

lemma Judges.deletesFind (h : Judges ts ev T s source cs b) (hcs : Distinct ts cs)
    (hF : ∀ pk, Held T.pkDict T.feedSets s.feedId pk ↔ (F pk).isSome = true) (txid : Option String) :
    DeletesFind F (OuterTier.emissions ts s b txid) := by
  obtain ⟨pks,hdeletes,hnodup,hpks⟩ := h.deletes
  rw [List.nil_append] at hdeletes
  rw [OuterTier.emissions,deletesFind_append,hdeletes]
  refine ⟨deletesFind_of_upserts (not_delete_members ts) F,deletesFind_deletes ts hnodup ?_ txid⟩
  intro pk hpk
  obtain ⟨hheld,c,hc,hkey,hm⟩ := (hpks pk).mp hpk
  rw [foldStream_members,(h.find_member hcs).1 c hc hkey,hm]
  exact (hF pk).mp hheld

end

/-- The newest rows of a delta stand under their own keys. -/
lemma key_of_latest (ts : TableSchema) (delta : Delta) {pk : String} {v : Row × Bool}
    (h : (latestRowsByPk ts delta).get? pk = some v) : (ts.keyString v.1).toOption.getD "" = pk := by
  induction delta using List.reverseRecOn generalizing pk v with
  | nil => cases h
  | append_singleton delta t ih =>
    rw [latestRowsByPk,List.foldl_append,List.foldl_cons,List.foldl_nil,← latestRowsByPk] at h
    dsimp only at h
    split_ifs at h with hpos
    · rw [AssocMap.get?_insert_eq] at h
      split_ifs at h with hk
      · obtain rfl := Option.some.inj h
        exact hk
      · exact ih h
    · rw [AssocMap.get?_modify] at h
      split_ifs at h with hk
      · obtain rfl := eq_of_beq hk
        obtain rfl := Option.some.inj h
        cases hold : (latestRowsByPk ts delta).get? ((ts.keyString t.1).toOption.getD "") with
        | none => rfl
        | some v => exact ih hold
      · exact ih h

lemma distinct_latest (ts : TableSchema) (delta : Delta) : Distinct ts (latestRowsByPk ts delta).values := by
  refine List.pairwise_map.mpr ((latestRowsByPk ts delta).nodup.imp_of_mem ?_)
  intro p q hp hq hne pk hpk hpk'
  have hkp := key_of_latest ts delta ((AssocMap.mem_entries _ p.1 p.2).mp hp)
  have hkq := key_of_latest ts delta ((AssocMap.mem_entries _ q.1 q.2).mp hq)
  rw [hpk] at hkp
  rw [hpk'] at hkq
  exact absurd (hkp.symm.trans hkq) (by simpa using hne)

/-- What stays of a shape while it is installed. -/
def SubqueryShape.fixed (s : SubqueryShape) : SubqueryShape := { s with recent := .empty, inflightQuerybacks := 0 }

namespace SubqueryShape
variable (s : SubqueryShape)

@[simp] lemma fixed_outerTable : s.fixed.outerTable = s.outerTable := rfl
@[simp] lemma fixed_streamPath : s.fixed.streamPath = s.streamPath := rfl
@[simp] lemma fixed_pred : s.fixed.pred = s.pred := rfl
@[simp] lemma fixed_outCols : s.fixed.outCols = s.outCols := rfl
@[simp] lemma fixed_gate : s.fixed.gate = s.gate := rfl
@[simp] lemma fixed_feedId : s.fixed.feedId = s.feedId := rfl

end SubqueryShape

namespace OuterTier

def fixed (T : OuterTier) (shapeId : String) : Option SubqueryShape := (T.shapes.get? shapeId).map SubqueryShape.fixed

/-- What holds of the outer tier in every state: feeds and streams are not shared, and each feed holds what
its stream shows. -/
structure Sound (T : OuterTier) : Prop where
  minted : T.pkDict.len ≤ 2^32 → Minted T.pkDict T.feedSets
  used : T.pkDict.len ≤ 2^32 → ∀ feedId pk, Held T.pkDict T.feedSets feedId pk → feedId < T.nextFeedId
  feed_lt : ∀ id s, T.fixed id = some s → s.feedId < T.nextFeedId
  feed_inj : ∀ id id' s s', T.fixed id = some s → T.fixed id' = some s' → s.feedId = s'.feedId → id = id'
  path_inj : ∀ id id' s s', T.fixed id = some s → T.fixed id' = some s' → s.streamPath = s'.streamPath → id = id'
  opened : ∀ id s, T.fixed id = some s → T.streams.get? s.streamPath ≠ none
  held : T.pkDict.len ≤ 2^32 → ∀ id s, T.fixed id = some s → ∀ pk,
    Held T.pkDict T.feedSets s.feedId pk ↔ (foldStream (fun _ => none) (T.stream s.streamPath) pk).isSome = true
  deletes : T.pkDict.len ≤ 2^32 → ∀ id s, T.fixed id = some s →
    DeletesFind (fun _ => none) (T.stream s.streamPath)
  filed : T.shapeIndex.Filed fun id => (T.fixed id).map fun s => (s.outerTable,s.pred)

variable {T : OuterTier} {ts : TableSchema} {ev : SubqueryEval} {shapeId : String} {s s' : SubqueryShape}

lemma sound_empty : empty.Sound where
  minted _ feedId id h := by simp [empty] at h
  used _ feedId pk h := by simp [empty,Held] at h
  feed_lt id s h := by simp [fixed,empty] at h
  feed_inj id _ s _ h := by simp [fixed,empty] at h
  path_inj id _ s _ h := by simp [fixed,empty] at h
  opened id s h := by simp [fixed,empty] at h
  held _ id s h := by simp [fixed,empty] at h
  deletes _ id s h := by simp [fixed,empty] at h
  filed := SubqueryShapeIndex.filed_empty

lemma fixed_of_get (h : T.shapes.get? shapeId = some s) : T.fixed shapeId = some s.fixed := by
  rw [fixed,h]
  rfl

/-- A shape that is put back with other stamps is the same shape. -/
lemma fixed_insert (h : T.shapes.get? shapeId = some s) (hs : s'.fixed = s.fixed) (id : String) :
    ((T.shapes.insert shapeId s').get? id).map SubqueryShape.fixed = T.fixed id := by
  rw [AssocMap.get?_insert_eq]
  split_ifs with hid
  · subst hid
    rw [fixed_of_get h,← hs]
    rfl
  · rfl

section
variable {source : EmissionSource} {a : Judged} {envs : List Envelope}

lemma fixed_deliver (h : T.shapes.get? shapeId = some s) (id : String) :
    (T.deliver shapeId s source a envs).fixed id = T.fixed id :=
  fixed_insert h (by rfl) id

lemma stream_deliver (path : String) : (T.deliver shapeId s source a envs).stream path =
    if path = s.streamPath then T.stream path ++ envs else T.stream path := by
  rw [stream,deliver,AssocMap.get?_modify]
  by_cases h : path = s.streamPath
  · simp [h,stream]
  · simp [h,Ne.symm h,stream]

lemma opened_deliver {path : String} (h : T.streams.get? path ≠ none) :
    (T.deliver shapeId s source a envs).streams.get? path ≠ none := by
  rw [deliver,AssocMap.get?_modify]
  split_ifs
  · exact Option.some_ne_none _
  · exact h

end

lemma emitForShape_of_get {txid : Option String} {source : EmissionSource} {g : String × List (Row × Bool)}
    (hs : T.shapes.get? g.1 = some s) : T.emitForShape ts ev txid source g =
      T.deliver g.1 s source (T.judge ts ev s source g.2) (emissions ts s (T.judge ts ev s source g.2) txid) := by
  rw [emitForShape,hs]

lemma len_judge {source : EmissionSource} {cs : List (Row × Bool)} :
    T.pkDict.len ≤ (T.judge ts ev s source cs).pkDict.len :=
  len_foldl (cs.filter _) ⟨T.pkDict,T.feedSets,[],[],[]⟩

lemma len_emitForShape (txid : Option String) (source : EmissionSource) (g : String × List (Row × Bool)) :
    T.pkDict.len ≤ (T.emitForShape ts ev txid source g).pkDict.len := by
  cases hs : T.shapes.get? g.1 with
  | none =>
    rw [emitForShape,hs]
  | some s =>
    rw [emitForShape_of_get hs]
    exact len_judge

/-- The candidates that are left, judged. -/
lemma Sound.judges (h : T.Sound) {source : EmissionSource} {cs : List (Row × Bool)} (hcs : Distinct ts cs)
    (hlen : (T.judge ts ev s source cs).pkDict.len ≤ 2^32) :
    Judges ts ev T s source (cs.filter (s.current ts T.pkDict source)) (T.judge ts ev s source cs) :=
  Outcome.foldl _ _ (hcs.filter _) (h.minted (len_judge.trans hlen)) hlen

/-- What an emission does to the stream of its own shape. -/
lemma Sound.foldStream_deliver (h : T.Sound) (hs : T.fixed shapeId = some s.fixed) {source : EmissionSource}
    {cs : List (Row × Bool)} {b : Judged} (hcs : Distinct ts cs) (hb : Judges ts ev T s source cs b)
    (hlen : b.pkDict.len ≤ 2^32) (txid : Option String) (pk : String) :
    (∀ c ∈ cs, ts.keyString c.1 = .ok pk →
      foldStream (fun _ => none) (T.stream s.streamPath ++ emissions ts s b txid) pk =
        if member ev s.pred c then some (ts.rowToJsonCols c.1 s.outCols) else none) ∧
    ((∀ c ∈ cs, ts.keyString c.1 ≠ .ok pk) →
      foldStream (fun _ => none) (T.stream s.streamPath ++ emissions ts s b txid) pk =
        foldStream (fun _ => none) (T.stream s.streamPath) pk) := by
  rw [foldStream_append]
  exact hb.foldStream_emissions hcs (h.held (hb.len.trans hlen) shapeId s.fixed hs) txid

/-- After an emission the feed of its shape holds what the stream shows. -/
lemma Sound.held_deliver (h : T.Sound) (hs : T.fixed shapeId = some s.fixed) {source : EmissionSource}
    {cs : List (Row × Bool)} {b : Judged} (hcs : Distinct ts cs) (hb : Judges ts ev T s source cs b)
    (hlen : b.pkDict.len ≤ 2^32) (txid : Option String) (pk : String) : Held b.pkDict b.feedSets s.feedId pk ↔
      (foldStream (fun _ => none) (T.stream s.streamPath ++ emissions ts s b txid) pk).isSome = true := by
  obtain ⟨hat,hrest⟩ := h.foldStream_deliver hs hcs hb hlen txid pk
  by_cases hpk : ∃ c ∈ cs, ts.keyString c.1 = .ok pk
  · obtain ⟨c,hc,hcpk⟩ := hpk
    refine (hb.held c hc pk hcpk).trans ?_
    rw [hat c hc hcpk]
    cases member ev s.pred c <;> simp
  · have hno : ∀ c ∈ cs, ts.keyString c.1 ≠ .ok pk := fun c hc hcpk => hpk ⟨c,hc,hcpk⟩
    refine (hb.frame s.feedId pk fun _ => hno).trans ?_
    rw [hrest hno]
    exact h.held (hb.len.trans hlen) shapeId s.fixed hs pk

/-- The emission of one shape. -/
theorem Sound.emitForShape (h : T.Sound) (txid : Option String) (source : EmissionSource)
    (g : String × List (Row × Bool)) (hg : Distinct ts g.2) : (T.emitForShape ts ev txid source g).Sound := by
  cases hs : T.shapes.get? g.1 with
  | none =>
    rw [OuterTier.emitForShape,hs]
    exact h
  | some s =>
    rw [emitForShape_of_get hs]
    have hgrow : T.pkDict.len ≤ (T.judge ts ev s source g.2).pkDict.len := T.len_judge
    have hjudge : (T.judge ts ev s source g.2).pkDict.len ≤ 2^32 → Judges ts ev T s source _ _ := h.judges hg
    have hcs := hg.filter (s.current ts T.pkDict source)
    have hfixed := fixed_of_get hs
    generalize T.judge ts ev s source g.2 = b at hgrow hjudge ⊢
    have hother : ∀ id s', T.fixed id = some s' → id ≠ g.1 → s'.feedId ≠ s.feedId ∧ s'.streamPath ≠ s.streamPath :=
      fun id s' hs' hne => ⟨fun heq => hne (h.feed_inj _ _ _ _ hs' hfixed heq),
        fun heq => hne (h.path_inj _ _ _ _ hs' hfixed heq)⟩
    refine ⟨fun hlen => (hjudge hlen).minted,?_,?_,?_,?_,?_,?_,?_,?_⟩
    · intro hlen feedId pk hheld
      by_cases hfeed : feedId = s.feedId
      · rw [hfeed]
        exact h.feed_lt g.1 s.fixed hfixed
      · exact h.used (hgrow.trans hlen) feedId pk (((hjudge hlen).frame feedId pk fun heq => absurd heq hfeed).mp hheld)
    · intro id s' hs'
      rw [fixed_deliver hs] at hs'
      exact h.feed_lt id s' hs'
    · intro id id' s₁ s₂ h₁ h₂
      rw [fixed_deliver hs] at h₁ h₂
      exact h.feed_inj id id' s₁ s₂ h₁ h₂
    · intro id id' s₁ s₂ h₁ h₂
      rw [fixed_deliver hs] at h₁ h₂
      exact h.path_inj id id' s₁ s₂ h₁ h₂
    · intro id s' hs'
      rw [fixed_deliver hs] at hs'
      exact opened_deliver (h.opened id s' hs')
    · intro hlen id s' hs' pk
      rw [fixed_deliver hs] at hs'
      rw [stream_deliver]
      by_cases hid : id = g.1
      · obtain rfl : s.fixed = s' := by rw [hid,hfixed] at hs'; exact Option.some.inj hs'
        rw [SubqueryShape.fixed_streamPath,if_pos rfl]
        exact h.held_deliver hfixed hcs (hjudge hlen) hlen txid pk
      · obtain ⟨hfeed,hpath⟩ := hother id s' hs' hid
        rw [if_neg hpath]
        exact ((hjudge hlen).frame s'.feedId pk fun heq => absurd heq hfeed).trans
          (h.held (hgrow.trans hlen) id s' hs' pk)
    · intro hlen id s' hs'
      rw [fixed_deliver hs] at hs'
      have hold := h.deletes (hgrow.trans hlen)
      rw [stream_deliver]
      by_cases hid : id = g.1
      · obtain rfl : s.fixed = s' := by rw [hid,hfixed] at hs'; exact Option.some.inj hs'
        rw [SubqueryShape.fixed_streamPath,if_pos rfl,deletesFind_append]
        exact ⟨hold g.1 s.fixed hfixed,
          (hjudge hlen).deletesFind hcs (h.held (hgrow.trans hlen) g.1 s.fixed hfixed) txid⟩
      · rw [if_neg (hother id s' hs' hid).2]
        exact hold id s' hs'
    · simp only [fixed_deliver hs]
      exact h.filed

/-- The emission of several shapes, one after the other. -/
theorem Sound.emitForShapes (h : T.Sound) (txid : Option String) (source : EmissionSource)
    (groups : List (String × List (Row × Bool))) (hgroups : ∀ g ∈ groups, Distinct ts g.2) :
    (T.emitForShapes ts ev groups txid source).Sound := by
  induction groups generalizing T with
  | nil => exact h
  | cons g groups ih =>
    obtain ⟨hg,hgroups⟩ := List.forall_mem_cons.mp hgroups
    exact ih (h.emitForShape txid source g hg) hgroups

/-- A shape that is put back with other stamps. -/
lemma Sound.restamp (h : T.Sound) (hs : T.shapes.get? shapeId = some s) (hfixed : s'.fixed = s.fixed) :
    Sound { T with shapes := T.shapes.insert shapeId s' } := by
  have hsame : ∀ id, OuterTier.fixed { T with shapes := T.shapes.insert shapeId s' } id = T.fixed id :=
    fixed_insert hs hfixed
  refine ⟨h.minted,h.used,?_,?_,?_,?_,?_,?_,?_⟩
  · simp only [hsame]
    exact h.feed_lt
  · simp only [hsame]
    exact h.feed_inj
  · simp only [hsame]
    exact h.path_inj
  · simp only [hsame]
    exact h.opened
  · simp only [hsame]
    exact h.held
  · simp only [hsame]
    exact h.deletes
  · simp only [hsame]
    exact h.filed

theorem Sound.beginQueryback (h : T.Sound) (shapeId : String) : (T.beginQueryback shapeId).Sound := by
  rw [OuterTier.beginQueryback]
  cases hs : T.shapes.get? shapeId with
  | none => exact h
  | some s => exact h.restamp hs rfl

theorem Sound.endQueryback (h : T.Sound) (shapeId : String) : (T.endQueryback shapeId).Sound := by
  rw [OuterTier.endQueryback]
  cases hs : T.shapes.get? shapeId with
  | none => exact h
  | some s => exact h.restamp hs rfl

theorem Sound.dropShape (h : T.Sound) (shapeId : String) : (T.dropShape shapeId).Sound := by
  rw [OuterTier.dropShape]
  cases hs : T.shapes.get? shapeId with
  | none => exact h
  | some s =>
    have hrest : ∀ id, OuterTier.fixed { T with
        shapes := T.shapes.erase shapeId
        shapeIndex := T.shapeIndex.remove shapeId
        feedSets := T.feedSets.dropFeed s.feedId } id = if shapeId = id then none else T.fixed id := by
      intro id
      simp only [fixed,AssocMap.get?_erase,beq_iff_eq]
      split_ifs
      · rfl
      · rfl
    have hkept : ∀ feedId pk, Held T.pkDict (T.feedSets.dropFeed s.feedId) feedId pk ↔
        feedId ≠ s.feedId ∧ Held T.pkDict T.feedSets feedId pk := by
      intro feedId pk
      simp only [Held,FeedSet.contains_dropFeed]
      constructor
      · rintro ⟨id,hid,hne,hc⟩
        exact ⟨hne.symm,id,hid,hc⟩
      · rintro ⟨hne,id,hid,hc⟩
        exact ⟨id,hid,hne.symm,hc⟩
    have hother : ∀ id s', (if shapeId = id then none else T.fixed id) = some s' →
        T.fixed id = some s' ∧ s'.feedId ≠ s.feedId := by
      intro id s' hs'
      split_ifs at hs' with hid
      exact ⟨hs',fun heq => hid (h.feed_inj _ _ _ _ (fixed_of_get hs) hs' heq.symm)⟩
    refine ⟨?_,?_,?_,?_,?_,?_,?_,?_,?_⟩
    · exact fun hlen feedId id hid => h.minted hlen feedId id ((FeedSet.contains_dropFeed ..).mp hid).2
    · exact fun hlen feedId pk hheld => h.used hlen feedId pk ((hkept feedId pk).mp hheld).2
    · intro id s' hs'
      rw [hrest] at hs'
      exact h.feed_lt id s' (hother id s' hs').1
    · intro id id' s₁ s₂ h₁ h₂
      rw [hrest] at h₁ h₂
      exact h.feed_inj id id' s₁ s₂ (hother id s₁ h₁).1 (hother id' s₂ h₂).1
    · intro id id' s₁ s₂ h₁ h₂
      rw [hrest] at h₁ h₂
      exact h.path_inj id id' s₁ s₂ (hother id s₁ h₁).1 (hother id' s₂ h₂).1
    · intro id s' hs'
      rw [hrest] at hs'
      exact h.opened id s' (hother id s' hs').1
    · intro hlen id s' hs' pk
      rw [hrest] at hs'
      obtain ⟨hs',hne⟩ := hother id s' hs'
      exact (hkept s'.feedId pk).trans ((and_iff_right hne).trans (h.held hlen id s' hs' pk))
    · intro hlen id s' hs'
      rw [hrest] at hs'
      exact h.deletes hlen id s' (hother id s' hs').1
    · have hfiled := h.filed.remove shapeId
      refine cast (congrArg _ (funext fun id => ?_)) hfiled
      rw [hrest]
      split_ifs <;> rfl

/-- Seeding a feed that holds nothing yet. -/
lemma seed_keys (feedId : ℕ) (pks : List String) : ∀ k : PkDict × FeedSet, ∀ k' : PkDict × FeedSet,
    k' = pks.foldl (fun (k : PkDict × FeedSet) pk =>
      ((k.1.getOrInsert pk).2,(k.2.insert feedId (k.1.getOrInsert pk).1).2)) k →
    k.1.len ≤ k'.1.len ∧ (k'.1.len ≤ 2^32 → Minted k.1 k.2 → Minted k'.1 k'.2 ∧ ∀ feedId' pk,
      (Held k'.1 k'.2 feedId' pk ↔ feedId' = feedId ∧ pk ∈ pks ∨ Held k.1 k.2 feedId' pk)) := by
  induction pks with
  | nil =>
    rintro k _ rfl
    exact ⟨Nat.le_refl _,fun _ hm => ⟨hm,by simp⟩⟩
  | cons pk pks ih =>
    rintro k k' hk'
    rw [List.foldl_cons] at hk'
    obtain ⟨hle,hrest⟩ := ih _ k' hk'
    simp only [PkDict.getOrInsert_eq] at hle hrest
    refine ⟨(k.1.len_le_mint pk).trans hle,fun hlen hm => ?_⟩
    obtain ⟨hminted,hheld⟩ := hrest hlen (hm.insert (hle.trans hlen))
    refine ⟨hminted,fun feedId' pk' => ?_⟩
    rw [hheld,held_insert hm (hle.trans hlen),← or_assoc,← and_or_left,List.mem_cons,or_comm (a := pk' ∈ pks)]

section
variable {chunks : List (List Row)} {outCols : Option (List ℕ)}

lemma foldStream_backfill (ts : TableSchema) (outCols : Option (List ℕ)) (chunks : List (List Row)) (pk : String) :
    ∀ F, (foldStream F (backfill ts outCols chunks) pk).isSome = true ↔
      (∃ r ∈ chunks.flatten, ts.keyString r = .ok pk) ∨ (F pk).isSome = true := by
  induction chunks with
  | nil => simp [backfill]
  | cons chunk chunks ih =>
    intro F
    rw [backfill,List.flatMap_cons,← backfill,foldStream_append,ih,foldStream_members,List.flatten_cons]
    simp only [List.mem_append,or_and_right,exists_or,or_assoc,or_left_comm (a := ∃ r, r ∈ chunk ∧ _)]
    refine or_congr_right ?_
    cases hfind : chunk.reverse.find? fun r => (ts.keyString r).toOption == some pk with
    | none =>
      rw [List.find?_eq_none] at hfind
      refine (or_iff_right ?_).symm
      rintro ⟨r,hr,hpk⟩
      exact hfind r (List.mem_reverse.mpr hr) (by simp [toOption_eq_some,hpk])
    | some r =>
      have hkey : ((ts.keyString r).toOption == some pk) = true := by simpa using List.find?_some hfind
      refine iff_of_true rfl (.inl ⟨r,List.mem_reverse.mp (List.mem_of_find?_eq_some hfind),?_⟩)
      exact toOption_eq_some.mp (eq_of_beq hkey)

/-- What a backfill shows is one of its rows. -/
lemma mem_of_foldStream_backfill (ts : TableSchema) (outCols : Option (List ℕ)) (chunks : List (List Row))
    (pk : String) : ∀ F j, foldStream F (backfill ts outCols chunks) pk = some j →
      (∃ r ∈ chunks.flatten, ts.keyString r = .ok pk ∧ j = ts.rowToJsonCols r outCols) ∨ F pk = some j := by
  induction chunks with
  | nil => exact fun F j h => .inr h
  | cons chunk chunks ih =>
    intro F j h
    rw [backfill,List.flatMap_cons,← backfill,foldStream_append] at h
    rw [List.flatten_cons]
    rcases ih _ j h with ⟨r,hr,hkey,hj⟩ | h
    · exact .inl ⟨r,List.mem_append_right _ hr,hkey,hj⟩
    · rw [foldStream_members] at h
      cases hfind : chunk.reverse.find? fun r => (ts.keyString r).toOption == some pk with
      | none =>
        rw [hfind] at h
        exact .inr h
      | some r =>
        rw [hfind] at h
        have hkey : ((ts.keyString r).toOption == some pk) = true := by simpa using List.find?_some hfind
        have hr := List.mem_reverse.mp (List.mem_of_find?_eq_some hfind)
        exact .inl ⟨r,List.mem_append_left _ hr,toOption_eq_some.mp (eq_of_beq hkey),(Option.some.inj h).symm⟩

lemma mem_seededPks (h : ∀ r ∈ chunks.flatten, ts.IsRow r) (pk : String) :
    pk ∈ seededPks ts chunks ↔ ∃ r ∈ chunks.flatten, ts.keyString r = .ok pk := by
  rw [seededPks,List.mem_map]
  refine exists_congr fun r => and_congr_right fun hr => ?_
  rw [TableSchema.keyString_eq (h r hr)]
  simp [Except.toOption]

end

/-- The shape that a create installs. -/
def created (T : OuterTier) (s : SubqueryShape) : SubqueryShape := { s with feedId := T.nextFeedId }.fixed

lemma fixed_create {chunks : List (List Row)} (id : String) :
    (T.create ts shapeId s chunks).fixed id = if shapeId = id then some (T.created s) else T.fixed id := by
  rw [fixed,create,install,AssocMap.get?_insert_eq]
  split_ifs
  · rfl
  · rfl

lemma stream_create {chunks : List (List Row)} (path : String) : (T.create ts shapeId s chunks).stream path =
    if s.streamPath = path then backfill ts s.outCols chunks else T.stream path := by
  rw [stream,create,install,AssocMap.get?_insert_eq]
  split_ifs <;> rfl

/-- A shape is the new one, or was there. -/
lemma cases_create {chunks : List (List Row)} {id : String} (hs' : (T.create ts shapeId s chunks).fixed id = some s') :
    id = shapeId ∧ s' = T.created s ∨ id ≠ shapeId ∧ T.fixed id = some s' := by
  rw [fixed_create] at hs'
  split_ifs at hs' with heq
  · exact .inl ⟨heq.symm,(Option.some.inj hs').symm⟩
  · exact .inr ⟨Ne.symm heq,hs'⟩

/-- Shapes that differ in what each has of its own still do when one is created that differs from all of them. -/
lemma inj_create {chunks : List (List Row)} {β : Type} {own : SubqueryShape → β}
    (hinj : ∀ id id' s s', T.fixed id = some s → T.fixed id' = some s' → own s = own s' → id = id')
    (hnew : ∀ id s', T.fixed id = some s' → own s' ≠ own (T.created s)) : ∀ id id' s₁ s₂,
      (T.create ts shapeId s chunks).fixed id = some s₁ → (T.create ts shapeId s chunks).fixed id' = some s₂ →
      own s₁ = own s₂ → id = id' := by
  intro id id' s₁ s₂ h₁ h₂ heq
  rcases cases_create h₁ with ⟨rfl,rfl⟩ | ⟨-,hold⟩
  · rcases cases_create h₂ with ⟨rfl,-⟩ | ⟨-,hold⟩
    · rfl
    · exact absurd heq.symm (hnew id' s₂ hold)
  · rcases cases_create h₂ with ⟨rfl,rfl⟩ | ⟨-,hold'⟩
    · exact absurd heq (hnew id s₁ hold)
    · exact hinj id id' s₁ s₂ hold hold' heq

/-- A shape that is created on a stream of its own, with the rows that its backfill read. -/
theorem Sound.create (h : T.Sound) {chunks : List (List Row)} (hid : T.shapes.get? shapeId = none)
    (hpath : T.streams.get? s.streamPath = none) (hrows : ∀ r ∈ chunks.flatten, ts.IsRow r) :
    (T.create ts shapeId s chunks).Sound := by
  obtain ⟨hlen,hkeys⟩ := seed_keys T.nextFeedId (seededPks ts chunks) (T.pkDict,T.feedSets)
    ((T.create ts shapeId s chunks).pkDict,(T.create ts shapeId s chunks).feedSets) rfl
  dsimp only at hlen hkeys
  have hlast : T.pkDict.len ≤ 2^32 → ∀ pk, ¬Held T.pkDict T.feedSets T.nextFeedId pk := fun hle pk hheld =>
    absurd (h.used hle T.nextFeedId pk hheld) (Nat.lt_irrefl _)
  have hnew : T.fixed shapeId = none := by rw [fixed,hid]; rfl
  have hfree : ∀ id s', T.fixed id = some s' → s.streamPath ≠ s'.streamPath := by
    rintro id s' hs' heq
    exact h.opened id s' hs' (heq ▸ hpath)
  refine ⟨fun hle => (hkeys hle (h.minted (hlen.trans hle))).1,?_,?_,
    inj_create h.feed_inj fun id s' hs' => (h.feed_lt id s' hs').ne,
    inj_create h.path_inj fun id s' hs' => (hfree id s' hs').symm,?_,?_,?_,?_⟩
  · intro hle feedId pk hheld
    rcases ((hkeys hle (h.minted (hlen.trans hle))).2 feedId pk).mp hheld with ⟨rfl,-⟩ | hheld
    · exact Nat.lt_succ_self _
    · exact Nat.lt_succ_of_lt (h.used (hlen.trans hle) feedId pk hheld)
  · intro id s' hs'
    rcases cases_create hs' with ⟨-,rfl⟩ | ⟨-,hs'⟩
    · exact Nat.lt_succ_self _
    · exact Nat.lt_succ_of_lt (h.feed_lt id s' hs')
  · intro id s' hs'
    rw [OuterTier.create,install,AssocMap.get?_insert_eq]
    split_ifs with heq
    · exact Option.some_ne_none _
    · rcases cases_create hs' with ⟨-,rfl⟩ | ⟨-,hs'⟩
      · exact absurd rfl heq
      · exact h.opened id s' hs'
  · intro hle id s' hs' pk
    refine ((hkeys hle (h.minted (hlen.trans hle))).2 s'.feedId pk).trans ?_
    rw [stream_create]
    rcases cases_create hs' with ⟨-,rfl⟩ | ⟨-,hs'⟩
    · change T.nextFeedId = T.nextFeedId ∧ _ ∨ Held _ _ T.nextFeedId pk ↔ (foldStream _ (if s.streamPath = s.streamPath
        then _ else _) pk).isSome = true
      rw [if_pos rfl,foldStream_backfill,mem_seededPks hrows]
      simp [hlast (hlen.trans hle) pk]
    · rw [if_neg (hfree id s' hs')]
      refine (or_iff_right ?_).trans (h.held (hlen.trans hle) id s' hs' pk)
      rintro ⟨heq,-⟩
      exact absurd (h.feed_lt id s' hs') (by rw [heq]; exact Nat.lt_irrefl _)
  · intro hle id s' hs'
    rw [stream_create]
    rcases cases_create hs' with ⟨-,rfl⟩ | ⟨-,hs'⟩
    · change DeletesFind _ (if s.streamPath = s.streamPath then _ else _)
      rw [if_pos rfl]
      refine deletesFind_of_upserts (fun e he => ?_) _
      obtain ⟨chunk,-,he⟩ := List.mem_flatMap.mp he
      exact not_delete_members ts e he
    · rw [if_neg (hfree id s' hs')]
      exact h.deletes (hlen.trans hle) id s' hs'
  · refine cast (congrArg _ (funext fun id => ?_)) (h.filed.insert shapeId s.outerTable s.pred)
    rw [fixed_create]
    split_ifs <;> rfl

/-- One step of the outer tier: a create that succeeds, a change of a table, the rows of a query-back, or the
end of a shape. The inner sets stand as they may at each step. -/
inductive Step : OuterTier → OuterTier → Prop
  | create (T : OuterTier) (ts : TableSchema) (shapeId : String) (s : SubqueryShape) (chunks : List (List Row))
    (hid : T.shapes.get? shapeId = none) (hpath : T.streams.get? s.streamPath = none)
    (hrows : ∀ r ∈ chunks.flatten, ts.IsRow r) : Step T (T.create ts shapeId s chunks)
  | replay (T : OuterTier) (ts : TableSchema) (ev : SubqueryEval) (shapeId : String) (delta : Delta)
    (stamp : CommitStamp) : Step T (T.replay ts ev shapeId delta stamp)
  | delta (T : OuterTier) (ts : TableSchema) (ev : SubqueryEval) (traced : Bool) (delta : Delta)
    (stamp : CommitStamp) (txid : Option String) : Step T (T.onTableDelta ts ev traced delta stamp txid)
  | begin (T : OuterTier) (shapeId : String) : Step T (T.beginQueryback shapeId)
  | queryBack (T : OuterTier) (ts : TableSchema) (ev : SubqueryEval) (shapeId : String) (rows : List Row)
    (gate : SnapshotGate) (txid : Option String) (hrows : Distinct ts (rows.map (·,true))) :
    Step T (T.queryBack ts ev shapeId rows gate txid)
  | done (T : OuterTier) (shapeId : String) : Step T (T.endQueryback shapeId)
  | drop (T : OuterTier) (shapeId : String) : Step T (T.dropShape shapeId)

inductive Reachable : OuterTier → Prop
  | start : Reachable empty
  | step {T T' : OuterTier} : Reachable T → Step T T' → Reachable T'

lemma Sound.onTableDelta (h : T.Sound) (traced : Bool) (delta : Delta) (stamp : CommitStamp)
    (txid : Option String) : (T.onTableDelta ts ev traced delta stamp txid).Sound := by
  refine h.emitForShapes txid _ _ fun g hg => ?_
  obtain ⟨id,-,rfl⟩ := List.mem_map.mp hg
  exact distinct_latest ts delta

lemma Sound.queryBack (h : T.Sound) {rows : List Row} (hrows : Distinct ts (rows.map (·,true)))
    (gate : SnapshotGate) (txid : Option String) : (T.queryBack ts ev shapeId rows gate txid).Sound :=
  h.emitForShapes txid _ _ fun g hg => by
    obtain rfl := List.mem_singleton.mp hg
    exact hrows

theorem Step.sound {T' : OuterTier} (hstep : Step T T') (h : T.Sound) : T'.Sound := by
  cases hstep with
  | create ts shapeId s chunks hid hpath hrows => exact h.create hid hpath hrows
  | replay ts ev shapeId delta stamp =>
    refine h.emitForShapes none _ _ fun g hg => ?_
    obtain rfl := List.mem_singleton.mp hg
    exact distinct_latest ts delta
  | delta ts ev traced delta stamp txid => exact h.onTableDelta traced delta stamp txid
  | begin shapeId => exact h.beginQueryback shapeId
  | queryBack ts ev shapeId rows gate txid hrows => exact h.queryBack hrows gate txid
  | done shapeId => exact h.endQueryback shapeId
  | drop shapeId => exact h.dropShape shapeId

theorem Reachable.sound (h : Reachable T) : T.Sound := by
  induction h with
  | start => exact sound_empty
  | step _ hstep ih => exact hstep.sound ih

/-- In every state, a shape's feed holds a key exactly if its stream, folded by key, shows one; and every delete
on the stream found its key there. -/
theorem Reachable.feed_eq_stream (h : Reachable T) (hlen : T.pkDict.len ≤ 2^32)
    (hs : T.shapes.get? shapeId = some s) :
    (∀ pk, Held T.pkDict T.feedSets s.feedId pk ↔
      (foldStream (fun _ => none) (T.stream s.streamPath) pk).isSome = true) ∧
    DeletesFind (fun _ => none) (T.stream s.streamPath) :=
  ⟨h.sound.held hlen shapeId s.fixed (fixed_of_get hs),h.sound.deletes hlen shapeId s.fixed (fixed_of_get hs)⟩

/-- A shape with one backfilled row, whose row is then deleted. -/
def sampleDeleted : OuterTier :=
  (empty.create .sample "shape" ⟨"issues","s",.inSubquery 1 "levels" false,none,.passthrough,0,.empty,0⟩
    [[⟨[.int 7,.int 3]⟩]]).onTableDelta .sample ⟨fun _ _ => true,fun _ => false⟩ false [(⟨[.int 7,.int 3]⟩,-1)]
    (5,none) none

theorem sample_feed_eq_stream :
    (∀ pk, Held sampleDeleted.pkDict sampleDeleted.feedSets 1 pk ↔
      (foldStream (fun _ => none) (sampleDeleted.stream "s") pk).isSome = true) ∧
    DeletesFind (fun _ => none) (sampleDeleted.stream "s") := by
  have hcreate : Reachable (empty.create .sample "shape"
      ⟨"issues","s",.inSubquery 1 "levels" false,none,.passthrough,0,.empty,0⟩ [[⟨[.int 7,.int 3]⟩]]) := by
    refine .step .start (.create _ _ _ _ _ rfl rfl fun r hr => ?_)
    obtain rfl := List.mem_singleton.mp hr
    refine ⟨rfl,fun i hi c hc => ?_⟩
    obtain rfl := List.mem_singleton.mp hi
    obtain rfl := Option.some.inj hc
    trivial
  obtain ⟨s,hs,hfeed,hpath⟩ : ∃ s, sampleDeleted.shapes.get? "shape" = some s ∧ s.feedId = 1 ∧ s.streamPath = "s" := by
    have hany : (sampleDeleted.shapes.get? "shape").any (fun s => s.feedId == 1 && s.streamPath == "s") = true := by
      decide +kernel
    simpa [Option.any_eq_true] using hany
  rw [← hfeed,← hpath]
  exact Reachable.feed_eq_stream (.step hcreate (.delta _ _ _ _ _ _ _)) (by decide +kernel) hs

end OuterTier
end ElectricCircuits
