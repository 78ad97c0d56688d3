import ElectricCircuits.Subquery.FeedStream

/-! One shape of the outer tier, seen from outside: how many query-backs are under way, the live decision
recorded for each key, and the rows on its stream; and what each step of the tier does to these. -/
namespace ElectricCircuits

namespace PkDict

/-- An id that a key was given since then was not there before. -/
lemma len_le_of_new {d d' : PkDict} {pk : String} {id : ℕ} (hle : d.len ≤ d'.len) (hlen : d'.len ≤ 2^32)
    (hgrows : ∀ pk id, d.get pk = some id → d'.get pk = some id) (hget : d'.get pk = some id)
    (hnone : d.get pk = none) : d.len ≤ id := by
  by_contra hlt
  obtain ⟨pk',hpk'⟩ : ∃ pk', d.resolve id = some pk' :=
    ⟨_,List.getElem?_eq_getElem (show id < d.reverse.length from not_le.mp hlt)⟩
  have hold := (get_iff (hle.trans hlen)).mpr hpk'
  obtain rfl := get_inj hlen (hgrows pk' id hold) hget
  cases hnone.symm.trans hold

/-- What is kept by ids that were handed out is kept for the keys that had them. -/
lemma bind_of_grows {β : Type} {d d' : PkDict} {f : ℕ → Option β} (hle : d.len ≤ d'.len) (hlen : d'.len ≤ 2^32)
    (hgrows : ∀ pk id, d.get pk = some id → d'.get pk = some id) (hf : ∀ i, f i ≠ none → i < d.len) (pk : String) :
    (d'.get pk).bind f = (d.get pk).bind f := by
  cases hold : d.get pk with
  | some id => rw [hgrows pk id hold]
  | none =>
    cases hnew : d'.get pk with
    | none => rfl
    | some id =>
      rw [Option.bind_some,Option.bind_none]
      by_contra hi
      exact absurd (hf id hi) (Nat.not_lt.mpr (len_le_of_new hle hlen hgrows hnew hold))

end PkDict

/-- The candidate that stands for a key. -/
def candidateAt (ts : TableSchema) (cs : List (Row × Bool)) (pk : String) : Option (Row × Bool) :=
  cs.find? fun c => (ts.keyString c.1).toOption == some pk

section
variable {ts : TableSchema} {cs : List (Row × Bool)} {pk : String} {c : Row × Bool}

lemma candidateAt_eq_none : candidateAt ts cs pk = none ↔ ∀ c ∈ cs, ts.keyString c.1 ≠ .ok pk := by
  simp [candidateAt,List.find?_eq_none,toOption_eq_some]

lemma candidateAt_eq_some (h : Distinct ts cs) :
    candidateAt ts cs pk = some c ↔ c ∈ cs ∧ ts.keyString c.1 = .ok pk := by
  constructor
  · intro hc
    have hkey : ((ts.keyString c.1).toOption == some pk) = true := by simpa using List.find?_some hc
    exact ⟨List.mem_of_find?_eq_some hc,toOption_eq_some.mp (eq_of_beq hkey)⟩
  · rintro ⟨hc,hpk⟩
    cases hd : candidateAt ts cs pk with
    | none => exact absurd hpk (candidateAt_eq_none.mp hd c hc)
    | some d =>
      have hkey : ((ts.keyString d.1).toOption == some pk) = true := by simpa using List.find?_some hd
      rw [h.eq_of_key (List.mem_of_find?_eq_some hd) hc (toOption_eq_some.mp (eq_of_beq hkey)) hpk]

end

lemma get?_recorded (stamp : CommitStamp) (ids : List ℕ) (m : AssocMap ℕ CommitStamp) (id : ℕ) :
    (ids.foldl (fun m id => m.insert id stamp) m).get? id = if id ∈ ids then some stamp else m.get? id := by
  induction ids generalizing m with
  | nil => simp
  | cons i ids ih =>
    rw [List.foldl_cons,ih,AssocMap.get?_insert_eq]
    by_cases hi : i = id
    · simp [hi]
    · simp [hi,Ne.symm hi]

section
variable {T : OuterTier} {ts : TableSchema} {ev : SubqueryEval} {s : SubqueryShape} {source : EmissionSource}
  {cs : List (Row × Bool)} {b : Judged}

/-- The live decisions recorded for a shape, after an emission. -/
lemma Judges.recorded (hb : Judges ts ev T s source cs b) (hlen : b.pkDict.len ≤ 2^32)
    (hids : ∀ i, s.recent.get? i ≠ none → i < T.pkDict.len) (pk : String) :
    (b.pkDict.get pk).bind (s.recorded source b.evaluated).get? =
      if decide (0 < s.inflightQuerybacks) && (candidateAt ts cs pk).isSome then
        source.liveStamp.or ((T.pkDict.get pk).bind s.recent.get?)
      else (T.pkDict.get pk).bind s.recent.get? := by
  have hsame := PkDict.bind_of_grows hb.len hlen hb.grows hids pk
  rw [← hsame,SubqueryShape.recorded]
  cases hstamp : source.liveStamp with
  | none => simp
  | some stamp =>
    have hrecords : s.records source = decide (0 < s.inflightQuerybacks) := by
      simp [SubqueryShape.records,hstamp]
    have hget : ∀ id, (b.evaluated.foldl (fun m id => m.insert id stamp) s.recent).get? id =
        if id ∈ b.evaluated then some stamp else s.recent.get? id := get?_recorded stamp _ _
    by_cases hinflight : 0 < s.inflightQuerybacks
    · cases hc : candidateAt ts cs pk with
      | some c =>
        -- a candidate's key has an id by now, and its decision is recorded
        have hkey : ((ts.keyString c.1).toOption == some pk) = true := by simpa using List.find?_some hc
        have hpk := toOption_eq_some.mp (eq_of_beq hkey)
        have hmem := List.mem_of_find?_eq_some hc
        obtain ⟨id,hid⟩ := Option.ne_none_iff_exists'.mp (hb.known (by simp [hrecords,hinflight]) c hmem pk hpk)
        have hevaluated : id ∈ b.evaluated :=
          (hb.evaluated id).mpr (.inr ⟨by simp [hrecords,hinflight],c,hmem,pk,hpk,hid⟩)
        simp [hid,hget,hevaluated,hinflight]
      | none =>
        simp only [hinflight,decide_true,Option.isSome_none,Bool.and_false,Bool.false_eq_true,if_false]
        refine Option.bind_congr fun id hid => ?_
        rw [hget,if_neg]
        intro hevaluated
        rcases (hb.evaluated id).mp hevaluated with hnil | ⟨-,c,hmem,pk',hpk',hid'⟩
        · cases hnil
        · obtain rfl := PkDict.get_inj hlen hid hid'
          exact candidateAt_eq_none.mp hc c hmem hpk'
    · simp only [hinflight,decide_false,Bool.false_and,Bool.false_eq_true,if_false]
      refine Option.bind_congr fun id hid => ?_
      rw [hget,if_neg]
      intro hevaluated
      rcases (hb.evaluated id).mp hevaluated with hnil | ⟨hrecord,-⟩
      · cases hnil
      · rw [hrecords] at hrecord
        exact hinflight (of_decide_eq_true hrecord)

lemma Judges.recorded_lt (hb : Judges ts ev T s source cs b) (hlen : b.pkDict.len ≤ 2^32)
    (hids : ∀ i, s.recent.get? i ≠ none → i < T.pkDict.len) (i : ℕ)
    (hi : (s.recorded source b.evaluated).get? i ≠ none) : i < b.pkDict.len := by
  rw [SubqueryShape.recorded] at hi
  cases hstamp : source.liveStamp with
  | none =>
    rw [hstamp] at hi
    exact (hids i hi).trans_le hb.len
  | some stamp =>
    rw [hstamp] at hi
    dsimp only at hi
    rw [get?_recorded] at hi
    split_ifs at hi with hevaluated
    · rcases (hb.evaluated i).mp hevaluated with hnil | ⟨-,c,-,pk,-,hid⟩
      · cases hnil
      · exact PkDict.lt_len hlen hid
    · exact (hids i hi).trans_le hb.len

end

/-- Whether an emission evaluates a candidate, by the live decision recorded for its key. -/
def EmissionSource.keeps (source : EmissionSource) (recent : Option CommitStamp) : Bool :=
  match source,recent with
  | .queryBack gate,some stamp => gate.shouldSkip stamp.1 stamp.2
  | _,_ => true

/-- What is recorded of a key after its candidates were decided. -/
def recentAfter (ts : TableSchema) (inflight : ℕ) (source : EmissionSource) (cs : List (Row × Bool))
    (recent : String → Option CommitStamp) (pk : String) : Option CommitStamp :=
  if decide (0 < inflight) && (candidateAt ts cs pk).isSome then source.liveStamp.or (recent pk) else recent pk

/-- What is shown of a key then: what its candidate comes to, unless a newer decision is recorded. -/
def shownAfter {β : Type} (ts : TableSchema) (judge : Row × Bool → Option β) (source : EmissionSource)
    (cs : List (Row × Bool)) (recent : String → Option CommitStamp) (F : String → Option β) (pk : String) : Option β :=
  match (candidateAt ts cs pk).filter fun _ => source.keeps (recent pk) with
  | some c => judge c
  | none => F pk

/-- A query-back records nothing. -/
lemma recentAfter_queryBack (ts : TableSchema) (inflight : ℕ) (gate : SnapshotGate) (cs : List (Row × Bool))
    (recent : String → Option CommitStamp) : recentAfter ts inflight (.queryBack gate) cs recent = recent := by
  funext pk
  rw [recentAfter]
  split_ifs <;> rfl

/-- What a shape shows of a candidate. -/
def SubqueryShape.shows (ts : TableSchema) (ev : SubqueryEval) (s : SubqueryShape) (c : Row × Bool) : Option Json :=
  if member ev s.pred c then some (ts.rowToJsonCols c.1 s.outCols) else none

namespace OuterTier

/-- What a shape, with the fields that stay, is at. -/
structure Seen (T : OuterTier) (shapeId : String) (fx : SubqueryShape) (inflight : ℕ)
    (recent : String → Option CommitStamp) (F : String → Option Json) : Prop where
  shape : ∃ s, T.shapes.get? shapeId = some s ∧ s.fixed = fx ∧ s.inflightQuerybacks = inflight ∧
    (∀ pk, (T.pkDict.get pk).bind s.recent.get? = recent pk) ∧ ∀ i, s.recent.get? i ≠ none → i < T.pkDict.len
  fold : ∀ pk, foldStream (fun _ => none) (T.stream fx.streamPath) pk = F pk

/-- The dictionary has lost nothing. -/
structure Grows (T T' : OuterTier) : Prop where
  len : T.pkDict.len ≤ T'.pkDict.len
  get : T'.pkDict.len ≤ 2^32 → ∀ pk id, T.pkDict.get pk = some id → T'.pkDict.get pk = some id

lemma Grows.refl (T : OuterTier) : T.Grows T := ⟨Nat.le_refl _,fun _ _ _ h => h⟩

lemma Grows.trans {T T' T'' : OuterTier} (h : T.Grows T') (h' : T'.Grows T'') : T.Grows T'' where
  len := h.len.trans h'.len
  get hlen pk id hid := h'.get hlen pk id (h.get (h'.len.trans hlen) pk id hid)

section
variable {T T' : OuterTier} {ts : TableSchema} {ev : SubqueryEval} {shapeId : String} {fx : SubqueryShape}
  {inflight : ℕ} {recent : String → Option CommitStamp} {F : String → Option Json}

/-- What leaves the shape and its stream alone changes nothing about it. -/
lemma Seen.other (h : T.Seen shapeId fx inflight recent F) (hgrows : T.Grows T') (hlen : T'.pkDict.len ≤ 2^32)
    (hshape : T'.shapes.get? shapeId = T.shapes.get? shapeId)
    (hstream : T'.stream fx.streamPath = T.stream fx.streamPath) : T'.Seen shapeId fx inflight recent F := by
  obtain ⟨s,hs,hfx,hinflight,hrecent,hids⟩ := h.shape
  refine ⟨⟨s,hshape.trans hs,hfx,hinflight,fun pk => ?_,fun i hi => (hids i hi).trans_le hgrows.len⟩,fun pk => ?_⟩
  · rw [← hrecent]
    exact PkDict.bind_of_grows hgrows.len hlen (hgrows.get hlen) hids pk
  · rw [hstream]
    exact h.fold pk

lemma grows_emitForShape (h : T.Sound) (txid : Option String) (source : EmissionSource)
    {g : String × List (Row × Bool)} (hg : Distinct ts g.2) : T.Grows (T.emitForShape ts ev txid source g) := by
  refine ⟨len_emitForShape txid source g,fun hlen => ?_⟩
  cases hs : T.shapes.get? g.1 with
  | none =>
    rw [emitForShape,hs]
    exact fun _ _ h => h
  | some s =>
    rw [emitForShape_of_get hs] at hlen ⊢
    exact (h.judges hg hlen).grows

/-- What the emission of a shape does to it: the candidates of keys without a newer decision show on its stream
what they are, and a live one is recorded while query-backs are under way. -/
theorem Seen.emit (h : T.Seen shapeId fx inflight recent F) (hsound : T.Sound) (txid : Option String)
    (source : EmissionSource) {cs : List (Row × Bool)} (hcs : Distinct ts cs)
    (hlen : (T.emitForShape ts ev txid source (shapeId,cs)).pkDict.len ≤ 2^32) :
    (T.emitForShape ts ev txid source (shapeId,cs)).Seen shapeId fx inflight
      (recentAfter ts inflight source cs recent) (shownAfter ts (fx.shows ts ev) source cs recent F) := by
  obtain ⟨s,hs,rfl,rfl,hrecent,hids⟩ := h.shape
  rw [emitForShape_of_get hs] at hlen ⊢
  have hb := hsound.judges hcs hlen
  have hkeep : ∀ c pk, ts.keyString c.1 = .ok pk →
      s.current ts T.pkDict source c = source.keeps (recent pk) := by
    intro c pk hpk
    rw [← hrecent pk]
    cases source with
    | queryBack gate =>
      rw [SubqueryShape.current,hpk]
      dsimp only
      cases (T.pkDict.get pk).bind s.recent.get? <;> rfl
    | live stamp => rfl
    | replay stamp => rfl
  have hkept : Distinct ts (cs.filter (s.current ts T.pkDict source)) := hcs.filter _
  have hat : ∀ pk, candidateAt ts (cs.filter (s.current ts T.pkDict source)) pk =
      (candidateAt ts cs pk).filter fun _ => source.keeps (recent pk) := by
    intro pk
    refine Option.ext fun c => ?_
    rw [candidateAt_eq_some hkept,Option.filter_eq_some_iff,candidateAt_eq_some hcs,List.mem_filter,and_assoc,
      and_assoc,and_comm (a := s.current ts T.pkDict source c = true)]
    exact and_congr_right fun _ => and_congr_right fun hpk => by rw [hkeep c pk hpk]
  refine ⟨⟨_,AssocMap.get?_insert_self ..,rfl,rfl,fun pk => ?_,fun i hi => ?_⟩,fun pk => ?_⟩
  · refine (hb.recorded hlen hids pk).trans ?_
    rw [recentAfter,hrecent,hat]
    cases source with
    | queryBack gate => simp [EmissionSource.liveStamp]
    | live stamp => simp [EmissionSource.keeps]
    | replay stamp => simp [EmissionSource.keeps]
  · exact hb.recorded_lt hlen hids i hi
  · obtain ⟨hmember,hrest⟩ := hsound.foldStream_deliver (fixed_of_get hs) hkept hb hlen txid pk
    rw [stream_deliver,SubqueryShape.fixed_streamPath,if_pos rfl,shownAfter,← hat]
    cases hc : candidateAt ts (cs.filter (s.current ts T.pkDict source)) pk with
    | some c =>
      obtain ⟨hmem,hpk⟩ := (candidateAt_eq_some hkept).mp hc
      exact hmember c hmem hpk
    | none =>
      rw [hrest (candidateAt_eq_none.mp hc)]
      exact h.fold pk

theorem Seen.begin (h : T.Seen shapeId fx inflight recent F) :
    (T.beginQueryback shapeId).Seen shapeId fx (inflight+1) recent F := by
  obtain ⟨s,hs,hfx,rfl,hrecent,hids⟩ := h.shape
  rw [beginQueryback,hs]
  exact ⟨⟨_,AssocMap.get?_insert_self ..,hfx,rfl,hrecent,hids⟩,h.fold⟩

theorem Seen.done (h : T.Seen shapeId fx inflight recent F) :
    (T.endQueryback shapeId).Seen shapeId fx (inflight-1)
      (fun pk => if inflight-1 = 0 then none else recent pk) F := by
  obtain ⟨s,hs,hfx,rfl,hrecent,hids⟩ := h.shape
  rw [endQueryback,hs]
  refine ⟨⟨_,AssocMap.get?_insert_self ..,hfx,rfl,fun pk => ?_,fun i hi => ?_⟩,h.fold⟩
  · dsimp only
    split_ifs
    · cases T.pkDict.get pk <;> rfl
    · exact hrecent pk
  · dsimp only at hi
    split_ifs at hi
    · exact absurd rfl hi
    · exact hids i hi

/-- The emission of another shape. -/
lemma Seen.emit_other (h : T.Seen shapeId fx inflight recent F) (hsound : T.Sound) (txid : Option String)
    (source : EmissionSource) {g : String × List (Row × Bool)} (hg : Distinct ts g.2) (hne : g.1 ≠ shapeId)
    (hlen : (T.emitForShape ts ev txid source g).pkDict.len ≤ 2^32) :
    (T.emitForShape ts ev txid source g).Seen shapeId fx inflight recent F := by
  refine h.other (grows_emitForShape hsound txid source hg) hlen ?_ ?_
  · cases hs : T.shapes.get? g.1 with
    | none => rw [emitForShape,hs]
    | some s =>
      rw [emitForShape_of_get hs,deliver,AssocMap.get?_insert_eq,if_neg hne]
  · cases hs : T.shapes.get? g.1 with
    | none => rw [emitForShape,hs]
    | some s =>
      rw [emitForShape_of_get hs,stream_deliver,if_neg]
      intro hpath
      obtain ⟨s',hs',rfl,-⟩ := h.shape
      exact hne (hsound.path_inj _ _ _ _ (fixed_of_get hs) (fixed_of_get hs') hpath.symm)

lemma grows_emitForShapes (hsound : T.Sound) (txid : Option String) (source : EmissionSource)
    (groups : List (String × List (Row × Bool))) (hgroups : ∀ g ∈ groups, Distinct ts g.2) :
    T.Grows (T.emitForShapes ts ev groups txid source) := by
  induction groups generalizing T with
  | nil => exact Grows.refl T
  | cons g groups ih =>
    obtain ⟨hg,hgroups⟩ := List.forall_mem_cons.mp hgroups
    exact (grows_emitForShape hsound txid source hg).trans (ih (hsound.emitForShape txid source g hg) hgroups)

lemma Seen.emit_others (h : T.Seen shapeId fx inflight recent F) (hsound : T.Sound) (txid : Option String)
    (source : EmissionSource) (groups : List (String × List (Row × Bool)))
    (hgroups : ∀ g ∈ groups, Distinct ts g.2 ∧ g.1 ≠ shapeId)
    (hlen : (T.emitForShapes ts ev groups txid source).pkDict.len ≤ 2^32) :
    (T.emitForShapes ts ev groups txid source).Seen shapeId fx inflight recent F := by
  induction groups generalizing T with
  | nil => exact h
  | cons g groups ih =>
    obtain ⟨hg,hgroups⟩ := List.forall_mem_cons.mp hgroups
    have hsound' : (T.emitForShape ts ev txid source g).Sound := hsound.emitForShape txid source g hg.1
    have hgrows : Grows _ (emitForShapes ts ev _ groups txid source) :=
      grows_emitForShapes hsound' txid source groups fun g hg => (hgroups g hg).1
    exact ih (h.emit_other hsound txid source hg.1 hg.2 (hgrows.len.trans hlen)) hsound' hgroups hlen

lemma nodup_visited (h : T.Sound) (traced : Bool) (delta : Delta) : (T.visited ts traced delta).Nodup := by
  rw [visited]
  split_ifs
  · exact AssocMap.nodup_keys _
  · exact h.filed.nodup_candidates ts.table delta

/-- A change of the table, for a shape that is visited and whose backfill did not see it, or not. -/
theorem Seen.onTableDelta (h : T.Seen shapeId fx inflight recent F) (hsound : T.Sound) (traced : Bool)
    (delta : Delta) (stamp : CommitStamp) (txid : Option String)
    (hlen : (T.onTableDelta ts ev traced delta stamp txid).pkDict.len ≤ 2^32) :
    (shapeId ∈ T.visited ts traced delta ∧ fx.gate.shouldSkip stamp.1 stamp.2 = false →
      (T.onTableDelta ts ev traced delta stamp txid).Seen shapeId fx inflight
        (recentAfter ts inflight (.live stamp) (latestRowsByPk ts delta).values recent)
        (shownAfter ts (fx.shows ts ev) (.live stamp) (latestRowsByPk ts delta).values recent F)) ∧
    (¬(shapeId ∈ T.visited ts traced delta ∧ fx.gate.shouldSkip stamp.1 stamp.2 = false) →
      (T.onTableDelta ts ev traced delta stamp txid).Seen shapeId fx inflight recent F) := by
  obtain ⟨s,hs,rfl,-⟩ := id h.shape
  have hcs := distinct_latest ts delta
  have hgroups : ∀ (ids : List String), ∀ g ∈ ids.map (·,(latestRowsByPk ts delta).values), Distinct ts g.2 := by
    intro ids g hg
    obtain ⟨id,-,rfl⟩ := List.mem_map.mp hg
    exact hcs
  have hnodup := (@nodup_visited T ts hsound traced delta).filter fun id =>
    !(T.shapes.get? id).any (·.gate.shouldSkip stamp.1 stamp.2)
  have hmem : shapeId ∈ ((T.visited ts traced delta).filter fun id =>
      !(T.shapes.get? id).any (·.gate.shouldSkip stamp.1 stamp.2)) ↔
        shapeId ∈ T.visited ts traced delta ∧ s.fixed.gate.shouldSkip stamp.1 stamp.2 = false := by
    simp [hs]
  rw [OuterTier.onTableDelta] at hlen ⊢
  generalize (T.visited ts traced delta).filter (fun id =>
    !(T.shapes.get? id).any (·.gate.shouldSkip stamp.1 stamp.2)) = ids at hmem hnodup hlen ⊢
  rw [← hmem]
  refine ⟨fun hin => ?_,fun hin => ?_⟩
  · obtain ⟨l,l',rfl⟩ := List.append_of_mem hin
    rw [List.nodup_append,List.nodup_cons] at hnodup
    obtain ⟨-,⟨hafter,-⟩,hbefore⟩ := hnodup
    have hne : ∀ ids : List String, shapeId ∉ ids → ∀ g ∈ ids.map (·,(latestRowsByPk ts delta).values),
        Distinct ts g.2 ∧ g.1 ≠ shapeId := by
      intro ids hnot g hg
      refine ⟨hgroups ids g hg,?_⟩
      obtain ⟨id,hid,rfl⟩ := List.mem_map.mp hg
      rintro rfl
      exact hnot hid
    rw [List.map_append,List.map_cons,emitForShapes,List.foldl_append,List.foldl_cons] at hlen ⊢
    have hsound₁ : (emitForShapes ts ev T _ txid (.live stamp)).Sound :=
      hsound.emitForShapes txid (.live stamp) _ (hgroups l)
    have hsound₂ : (emitForShape ts ev txid (.live stamp) _ (shapeId,_)).Sound :=
      hsound₁.emitForShape txid (.live stamp) (shapeId,_) hcs
    have hgrows₂ : Grows _ (emitForShapes ts ev _ _ txid (.live stamp)) :=
      grows_emitForShapes hsound₂ txid (.live stamp) _ (hgroups l')
    have hlen₂ := hgrows₂.len.trans hlen
    have hgrows₁ : Grows _ (emitForShape ts ev txid (.live stamp) _ (shapeId,_)) :=
      grows_emitForShape hsound₁ txid (.live stamp) hcs
    have hlen₁ := hgrows₁.len.trans hlen₂
    have h₁ := h.emit_others hsound txid (.live stamp) _
      (hne l fun hl => hbefore shapeId hl shapeId List.mem_cons_self rfl) hlen₁
    exact (h₁.emit hsound₁ txid (.live stamp) hcs hlen₂).emit_others hsound₂ txid (.live stamp) _ (hne l' hafter) hlen
  · refine h.emit_others hsound txid (.live stamp) _ (fun g hg => ⟨hgroups ids g hg,?_⟩) hlen
    obtain ⟨id,hid,rfl⟩ := List.mem_map.mp hg
    rintro rfl
    exact hin hid

theorem Seen.queryBack (h : T.Seen shapeId fx inflight recent F) (hsound : T.Sound) {rows : List Row}
    (hrows : Distinct ts (rows.map (·,true))) (gate : SnapshotGate) (txid : Option String)
    (hlen : (T.queryBack ts ev shapeId rows gate txid).pkDict.len ≤ 2^32) :
    (T.queryBack ts ev shapeId rows gate txid).Seen shapeId fx inflight recent
      (shownAfter ts (fx.shows ts ev) (.queryBack gate) (rows.map (·,true)) recent F) := by
  have hemit : Seen _ shapeId fx inflight _ (shownAfter ts (fx.shows ts ev) (.queryBack gate) _ recent F) :=
    h.emit hsound txid (.queryBack gate) hrows hlen
  rw [recentAfter_queryBack] at hemit
  exact hemit

/-- The keys of a backfill leave the ids that were given before. -/
lemma seed_get (feedId : ℕ) (pks : List String) : ∀ (k : PkDict × FeedSet) (pk : String) (id : ℕ),
    k.1.get pk = some id → (pks.foldl (fun (k : PkDict × FeedSet) pk =>
      ((k.1.getOrInsert pk).2,(k.2.insert feedId (k.1.getOrInsert pk).1).2)) k).1.get pk = some id := by
  induction pks with
  | nil => exact fun _ _ _ hid => hid
  | cons pk pks ih =>
    intro k pk' id hid
    rw [List.foldl_cons]
    refine ih _ pk' id ?_
    rw [PkDict.getOrInsert_eq]
    exact PkDict.get_mint hid

lemma grows_create (T : OuterTier) (ts : TableSchema) (shapeId : String) (s : SubqueryShape)
    (chunks : List (List Row)) : T.Grows (T.create ts shapeId s chunks) where
  len := (seed_keys T.nextFeedId (seededPks ts chunks) (T.pkDict,T.feedSets) _ rfl).1
  get _ pk id hid := seed_get T.nextFeedId (seededPks ts chunks) (T.pkDict,T.feedSets) pk id hid

lemma len_emitForShapes (T : OuterTier) (groups : List (String × List (Row × Bool))) (txid : Option String)
    (source : EmissionSource) : T.pkDict.len ≤ (T.emitForShapes ts ev groups txid source).pkDict.len := by
  induction groups generalizing T with
  | nil => exact Nat.le_refl _
  | cons g groups ih => exact (len_emitForShape txid source g).trans (ih _)

@[simp] lemma pkDict_beginQueryback (T : OuterTier) (shapeId : String) :
    (T.beginQueryback shapeId).pkDict = T.pkDict := by
  rw [beginQueryback]
  cases T.shapes.get? shapeId <;> rfl

@[simp] lemma pkDict_endQueryback (T : OuterTier) (shapeId : String) : (T.endQueryback shapeId).pkDict = T.pkDict := by
  rw [endQueryback]
  cases T.shapes.get? shapeId <;> rfl

lemma Step.len (hstep : Step T T') : T.pkDict.len ≤ T'.pkDict.len := by
  cases hstep with
  | create ts shapeId s chunks => exact (grows_create T ts shapeId s chunks).len
  | begin shapeId => rw [pkDict_beginQueryback]
  | done shapeId => rw [pkDict_endQueryback]
  | drop shapeId =>
    rw [dropShape]
    cases T.shapes.get? shapeId <;> exact Nat.le_refl _
  | _ => exact len_emitForShapes ..

/-- Every step of the tier keeps the ids that were given. -/
lemma Step.grows (hstep : Step T T') (h : T.Sound) : T.Grows T' := by
  cases hstep with
  | create ts shapeId s chunks => exact grows_create T ts shapeId s chunks
  | replay ts ev shapeId delta stamp =>
    refine grows_emitForShapes h none _ _ fun g hg => ?_
    obtain rfl := List.mem_singleton.mp hg
    exact distinct_latest ts delta
  | delta ts ev traced delta stamp txid =>
    refine grows_emitForShapes h txid _ _ fun g hg => ?_
    obtain ⟨id,-,rfl⟩ := List.mem_map.mp hg
    exact distinct_latest ts delta
  | queryBack ts ev shapeId rows gate txid hrows =>
    refine grows_emitForShapes h txid _ _ fun g hg => ?_
    obtain rfl := List.mem_singleton.mp hg
    exact hrows
  | begin shapeId =>
    rw [beginQueryback]
    cases T.shapes.get? shapeId <;> exact ⟨Nat.le_refl _,fun _ _ _ h => h⟩
  | done shapeId =>
    rw [endQueryback]
    cases T.shapes.get? shapeId <;> exact ⟨Nat.le_refl _,fun _ _ _ h => h⟩
  | drop shapeId =>
    rw [dropShape]
    cases T.shapes.get? shapeId <;> exact ⟨Nat.le_refl _,fun _ _ _ h => h⟩

end
end OuterTier

namespace CompiledPredicate

lemma leafOf_value_ne_null {p : CompiledPredicate} {l : AccessLeaf} (h : leafOf p = some l) : l.value ≠ .null := by
  cases p with
  | cmp col op v =>
    simp only [leafOf] at h
    split_ifs at h with hnull
    have hv : l.value = v := by cases op <;> cases h <;> rfl
    rwa [hv]
  | _ => cases h

/-- A necessary conjunct compares with a value. -/
lemma collectLeaf_value_ne_null (p : CompiledPredicate) : ∀ best, (∀ b ∈ best, AccessLeaf.value b ≠ .null) →
    ∀ l ∈ collectLeaf best p, l.value ≠ .null := by
  have hleaf : ∀ p : CompiledPredicate, (∀ ps, p ≠ .and ps) → ∀ best, (∀ b ∈ best, AccessLeaf.value b ≠ .null) →
      ∀ l ∈ collectLeaf best p, l.value ≠ .null := by
    intro p hp best hbest l hl
    rw [collectLeaf] at hl
    · cases hlf : leafOf p with
      | none => exact hbest l (by simpa [hlf] using hl)
      | some x =>
        simp only [hlf] at hl
        split_ifs at hl
        · obtain rfl := Option.some.inj hl
          exact leafOf_value_ne_null hlf
        · exact hbest l hl
    · exact hp
  induction p using CompiledPredicate.induction_on with
  | and ps ih =>
    intro best hbest
    rw [collectLeaf]
    induction ps generalizing best with
    | nil => exact hbest
    | cons p ps ihs =>
      obtain ⟨hp,hps⟩ := List.forall_mem_cons.mp ih
      exact ihs hps (collectLeaf best p) (hp best hbest)
  | _ => exact hleaf _ (by simp)

end CompiledPredicate

/-- A row of a change that does not lead to a shape is none of the shape's, whatever the inner sets say. -/
lemma OuterTier.Sound.unvisited {T : OuterTier} (h : T.Sound) {ts : TableSchema} {shapeId : String}
    {fx : SubqueryShape} {traced : Bool} {delta : Delta} (hfx : T.fixed shapeId = some fx)
    (htable : fx.outerTable = ts.table) (hnot : shapeId ∉ T.visited ts traced delta) {t : Row × ℤ}
    (ht : t ∈ delta) (ev : SubqueryEval) : fx.pred.matchesCtx t.1 ev = false := by
  rw [visited] at hnot
  split_ifs at hnot with htraced
  · obtain ⟨s,hs,rfl⟩ := Option.map_eq_some_iff.mp hfx
    refine absurd ?_ hnot
    rw [AssocMap.mem_keys,AssocMap.get?_filter,hs]
    simpa using htable
  · rw [Bool.eq_false_iff]
    intro hmatch
    refine hnot ((h.filed.mem_candidates ?_ ts.table delta shapeId).mpr ⟨fx.pred,by simp [hfx,htable],?_⟩)
    · intro id table pred _ l hl
      exact CompiledPredicate.collectLeaf_value_ne_null pred none nofun l hl
    · cases hleaf : fx.pred.accessLeaf with
      | none => exact .inl rfl
      | some l =>
        refine .inr ⟨l,rfl,t,ht,@CompiledPredicate.collectLeaf_holds t.1 ev fx.pred none nofun ?_ l hleaf⟩
        simpa [CompiledPredicate.matchesCtx] using hmatch

end ElectricCircuits
