import ElectricCircuits.Routing

/-! The indexed fan-out is the naive scan: what an envelope stages through the routers and the candidate
indexes is what every live shape gets from its own predicate. -/
namespace ElectricCircuits

/-- The appends that a transaction makes: a chunk without envelopes makes none. -/
def Staged.appends (staged : Staged) : Staged := staged.filter fun c => !c.2.isEmpty

/-- What one live shape appends for a delta. -/
def Live.chunk (ts : TableSchema) (delta : Delta) (stamp : Stamp) :
    Live → Option (String × List Envelope)
  | .plain s =>
    if stamp.skips s.gate then none
    else
      let envs := translateOutput ts (evalStandalone s.pred delta) stamp.txid stamp.lsn s.outCols
      if envs.isEmpty then none else some (s.streamPath,envs)
  | .aggregate _ => none

@[simp] lemma translateOutput_nil (ts : TableSchema) (txid lsn : Option String)
    (outCols : Option (List ℕ)) : translateOutput ts [] txid lsn outCols = [] := rfl

lemma chunk_ne_nil {ts : TableSchema} {delta : Delta} {stamp : Stamp} {s : StandaloneShape}
    {c : String × List Envelope} (h : (Live.plain s).chunk ts delta stamp = some c) :
    evalStandalone s.pred delta ≠ [] := by
  intro hnil
  simp [Live.chunk,hnil] at h

/-- The appends of a scan. -/
lemma appends_plainOutput (R : Registry) (ts : TableSchema) (key : String) (delta : Delta)
    (stamp : Stamp) : (R.plainOutput ts key delta stamp false).appends =
      R.live.entries.filterMap fun e => e.2.chunk ts delta stamp := by
  rw [Staged.appends,Registry.plainOutput,List.filter_filterMap]
  refine List.filterMap_congr ?_
  rintro ⟨sid,l⟩ _
  cases l with
  | aggregate a => rfl
  | plain s =>
    simp only [Live.chunk,Bool.false_eq_true,if_false]
    split_ifs with hskip hempty <;> simp_all

namespace TableExec

/-- The chunks of the filtered shapes, by shape. -/
def standaloneTagged (T : TableExec) (delta : Delta) (stamp : Stamp) (traced : Bool) :
    List (String × String × List Envelope) :=
  (if traced then T.shapes.keys else T.shapeIndex.candidates delta).filterMap fun sid =>
    ((T.shapes.get? sid).bind fun shape => (Live.plain shape).chunk T.ts delta stamp).map (sid,·)

lemma appends_standaloneOutput (T : TableExec) (delta : Delta) (stamp : Stamp) (traced : Bool) :
    (T.standaloneOutput delta stamp traced).appends =
      (T.standaloneTagged delta stamp traced).map (·.2) := by
  rw [Staged.appends,standaloneOutput,standaloneTagged,List.filter_filterMap,List.map_filterMap]
  refine List.filterMap_congr fun sid _ => ?_
  cases T.shapes.get? sid with
  | none => rfl
  | some shape =>
    simp only [Option.bind_some,Live.chunk,List.isEmpty_iff]
    by_cases hnil : evalStandalone shape.pred delta = []
    · simp [hnil]
    · simp only [hnil,if_false]
      split_ifs with hskip hempty <;> simp [*]

/-- What a family appends to the stream of one of its shapes. -/
def groupChunk (ts : TableSchema) (stamp : Stamp) (group : (String × Option (List ℕ)) × Delta) :
    Option (String × List Envelope) :=
  let envs := translateOutput ts group.2 stamp.txid stamp.lsn group.1.2
  if envs.isEmpty then none else some (group.1.1,envs)

/-- The chunks of the routed shapes, by shape. -/
def routedTagged (T : TableExec) (delta : Delta) (stamp : Stamp) :
    List (String × String × List Envelope) :=
  T.families.entries.flatMap fun e =>
    (byShape stamp delta e.1 e.2).entries.filterMap fun x =>
      (groupChunk T.ts stamp x.2).map (shapeId x.1,·)

lemma appends_routedOutput (T : TableExec) (delta : Delta) (stamp : Stamp) :
    (T.routedOutput delta stamp).appends = (T.routedTagged delta stamp).map (·.2) := by
  rw [Staged.appends,routedOutput,routedTagged,List.filter_flatMap,List.map_flatMap]
  refine List.flatMap_congr fun e _ => ?_
  rw [List.filter_filterMap,List.map_filterMap]
  refine List.filterMap_congr fun x _ => ?_
  simp only [groupChunk]
  split_ifs with hempty <;> simp_all

end TableExec

namespace Refines
variable {T : TableExec} {R : Registry}

lemma nodup_standaloneTagged (T : TableExec) (delta : Delta) (stamp : Stamp) (traced : Bool) :
    ((T.standaloneTagged delta stamp traced).map (·.1)).Nodup := by
  have hids : (if traced then T.shapes.keys else T.shapeIndex.candidates delta).Nodup := by
    split_ifs
    · exact T.shapes.nodup_keys
    · exact StandaloneIndex.nodup_candidates _ _
  have htags := AssocMap.tags_sublist (if traced then T.shapes.keys else T.shapeIndex.candidates delta)
    id fun sid => (T.shapes.get? sid).bind fun shape => (Live.plain shape).chunk T.ts delta stamp
  rw [List.map_id] at htags
  exact hids.sublist htags

/-- The candidates miss no filtered shape that a row of the delta matches. -/
lemma mem_standaloneTagged (h : Refines T R) {delta : Delta} {stamp : Stamp} {traced : Bool}
    {sid : String} {c : String × List Envelope} :
    (sid,c) ∈ T.standaloneTagged delta stamp traced ↔
      ∃ s, T.shapes.get? sid = some s ∧ (Live.plain s).chunk T.ts delta stamp = some c := by
  simp only [TableExec.standaloneTagged,List.mem_filterMap,Option.map_eq_some_iff,
    Option.bind_eq_some_iff,Prod.mk.injEq]
  constructor
  · rintro ⟨_,-,_,⟨s,hs,hc⟩,rfl,rfl⟩
    exact ⟨s,hs,hc⟩
  · rintro ⟨s,hs,hc⟩
    refine ⟨sid,?_,c,⟨s,hs,hc⟩,rfl,rfl⟩
    split_ifs
    · exact List.mem_map.mpr ⟨(sid,s),(T.shapes.mem_entries sid s).mpr hs,rfl⟩
    · obtain ⟨t,ht⟩ := List.exists_mem_of_ne_nil _ (chunk_ne_nil hc)
      obtain ⟨hmem,hmatch⟩ := List.mem_filter.mp ht
      exact h.shapeIndex.mem_candidates (by simp [hs]) hmem hmatch

/-- What one row pushes to one shape of a family. -/
lemma filter_pushes (h : Refines T R) {cols : List ℕ} {index : AssocMap Row (List RoutedShape)}
    (hmem : (cols,index) ∈ T.families.entries) (stamp : Stamp) (n : ℕ) (t : Row × ℤ) :
    (TableExec.pushes stamp cols index t).filter (·.1 == n) =
      ((R.routedAt cols (keyOf t.1 cols) n).toList.filter fun rs => !stamp.skips rs.gate).map
        fun rs => (rs.numId,(rs.streamPath,rs.outCols),t) := by
  have hbucket : (index.get? (keyOf t.1 cols)).getD [] = T.families.bucket cols (keyOf t.1 cols) := by
    rw [Buckets.bucket,AssocMap.get?_of_mem hmem,Option.bind_some]
  have hpushes : TableExec.pushes stamp cols index t =
      ((T.families.bucket cols (keyOf t.1 cols)).filter fun rs => !stamp.skips rs.gate).map
        fun rs => (rs.numId,(rs.streamPath,rs.outCols),t) := by
    rw [← hbucket,TableExec.pushes]
    cases index.get? (keyOf t.1 cols) <;> rfl
  rw [hpushes,List.filter_map,List.filter_filter,← h.families,List.filter_filter]
  refine congrArg _ (List.filter_congr fun rs _ => ?_)
  exact Bool.and_comm _ _

/-- A row matches a routed shape when it has the shape's key. -/
lemma template_iff {s : StandaloneShape} {cols : List ℕ} {key : Row}
    (ht : s.template = some (cols,key)) (row : Row) :
    s.pred.matchesRow row = true ↔ (keyOf row cols == key) = true := by
  obtain ⟨pairs,hpairs,heq⟩ := Option.map_eq_some_iff.mp ht
  obtain ⟨rfl,rfl⟩ := Prod.mk.injEq .. ▸ heq
  exact CompiledPredicate.equalityTemplate_iff hpairs row

lemma filter_pushes_member (h : Refines T R) {cols : List ℕ} {index : AssocMap Row (List RoutedShape)}
    (hmem : (cols,index) ∈ T.families.entries) (delta : Delta) (stamp : Stamp) {n : ℕ}
    {s : StandaloneShape} {key : Row} (hl : R.live.get? (shapeId n) = some (.plain s))
    (ht : s.template = some (cols,key)) :
    (delta.flatMap (TableExec.pushes stamp cols index)).filter (·.1 == n) =
      if stamp.skips s.gate then []
      else (evalStandalone s.pred delta).map (n,(s.streamPath,s.outCols),·) := by
  have hrow : ∀ t : Row × ℤ, (TableExec.pushes stamp cols index t).filter (·.1 == n) =
      if s.pred.matchesRow t.1 && !stamp.skips s.gate then [(n,(s.streamPath,s.outCols),t)] else [] := by
    intro t
    have hkey : (key == keyOf t.1 cols) = s.pred.matchesRow t.1 := by
      rw [Bool.eq_iff_iff,template_iff ht]
      exact ⟨BEq.symm,BEq.symm⟩
    rw [h.filter_pushes hmem,Registry.routedAt,hl,Option.bind_some,Live.routedAt,ht,Option.bind_some]
    cases hm : s.pred.matchesRow t.1 <;> cases hs : stamp.skips s.gate <;>
      simp [hkey,hm,hs,StandaloneShape.routed]
  rw [List.filter_flatMap]
  simp only [hrow]
  cases hs : stamp.skips s.gate with
  | true => simp
  | false =>
    induction delta with
    | nil => rfl
    | cons t delta ih => cases hm : s.pred.matchesRow t.1 <;> simp_all [evalStandalone]

lemma filter_pushes_other (h : Refines T R) {cols : List ℕ} {index : AssocMap Row (List RoutedShape)}
    (hmem : (cols,index) ∈ T.families.entries) (delta : Delta) (stamp : Stamp) {n : ℕ}
    (hn : ∀ s key, R.live.get? (shapeId n) = some (.plain s) → s.template ≠ some (cols,key)) :
    (delta.flatMap (TableExec.pushes stamp cols index)).filter (·.1 == n) = [] := by
  have hnone : ∀ key, R.routedAt cols key n = none := by
    intro key
    rw [Registry.routedAt]
    cases hl : R.live.get? (shapeId n) with
    | none => rfl
    | some l =>
      cases l with
      | aggregate a => rfl
      | plain s =>
        rw [Option.bind_some,Live.routedAt]
        cases ht : s.template with
        | none => rfl
        | some t =>
          rw [Option.bind_some]
          refine if_neg fun hkey => hn s t.2 hl ?_
          rw [ht,← hkey.1]
  rw [List.filter_flatMap]
  simp only [h.filter_pushes hmem,hnone]
  simp

/-- What a family sends to one shape: the rows that match its predicate, if it stands in the family. -/
lemma get?_byShape (h : Refines T R) {cols : List ℕ} {index : AssocMap Row (List RoutedShape)}
    (hmem : (cols,index) ∈ T.families.entries) (delta : Delta) (stamp : Stamp) (n : ℕ)
    (head : String × Option (List ℕ)) (rows : Delta) :
    (TableExec.byShape stamp delta cols index).get? n = some (head,rows) ↔
      ∃ s key, R.live.get? (shapeId n) = some (.plain s) ∧ s.template = some (cols,key) ∧
        stamp.skips s.gate = false ∧ head = (s.streamPath,s.outCols) ∧
        rows = evalStandalone s.pred delta ∧ rows ≠ [] := by
  rw [TableExec.byShape,AssocMap.get?_foldl_push]
  by_cases hn : ∃ s key, R.live.get? (shapeId n) = some (.plain s) ∧ s.template = some (cols,key)
  · obtain ⟨s,key,hl,ht⟩ := hn
    rw [h.filter_pushes_member hmem delta stamp hl ht]
    cases hs : stamp.skips s.gate with
    | true => simp [hl,hs]
    | false =>
      simp only [Bool.false_eq_true,if_false,hl,Option.some.injEq,Live.plain.injEq]
      cases hrows : evalStandalone s.pred delta with
      | nil =>
        refine ⟨nofun,?_⟩
        rintro ⟨_,_,rfl,-,-,-,rfl,hne⟩
        exact absurd hrows hne
      | cons t rest =>
        simp only [List.map_cons,List.map_map,Function.comp_def,List.map_id',Option.some.injEq,
          Prod.mk.injEq]
        constructor
        · rintro ⟨rfl,rfl⟩
          exact ⟨s,key,rfl,ht,hs,rfl,hrows.symm,List.cons_ne_nil _ _⟩
        · rintro ⟨_,_,rfl,-,-,rfl,rfl,-⟩
          exact ⟨rfl,hrows.symm⟩
  · rw [h.filter_pushes_other hmem delta stamp fun s key hl ht => hn ⟨s,key,hl,ht⟩]
    refine ⟨nofun,?_⟩
    rintro ⟨s,key,hl,ht,-⟩
    exact absurd ⟨s,key,hl,ht⟩ hn

/-- A family is the one that a shape's predicate puts it in. -/
def InFamily (R : Registry) (sid : String) (cols : List ℕ) : Prop :=
  ∃ s key, R.live.get? sid = some (.plain s) ∧ s.template = some (cols,key)

lemma inFamily_unique {sid : String} {cols cols' : List ℕ} (h : InFamily R sid cols)
    (h' : InFamily R sid cols') : (cols == cols') = true := by
  obtain ⟨s,key,hl,ht⟩ := h
  obtain ⟨s',key',hl',ht'⟩ := h'
  obtain rfl : s = s' := by simpa [hl] using hl'
  rw [ht] at ht'
  simp_all

/-- The families reach exactly the routed shapes that a row of the delta matches. -/
lemma mem_routedTagged (h : Refines T R) {delta : Delta} {stamp : Stamp} {sid : String}
    {c : String × List Envelope} : (sid,c) ∈ T.routedTagged delta stamp ↔
      ∃ s, R.live.get? sid = some (.plain s) ∧ s.template.isSome = true ∧
        (Live.plain s).chunk T.ts delta stamp = some c := by
  simp only [TableExec.routedTagged,List.mem_flatMap,List.mem_filterMap,Option.map_eq_some_iff,
    Prod.mk.injEq]
  constructor
  · rintro ⟨⟨cols,index⟩,hmem,⟨n,head,rows⟩,hrows,c',hc,rfl,rfl⟩
    obtain ⟨s,key,hl,ht,hs,rfl,rfl,-⟩ :=
      (h.get?_byShape hmem delta stamp n _ _).mp ((AssocMap.mem_entries _ _ _).mp hrows)
    exact ⟨s,hl,by simp [ht],by simpa [Live.chunk,hs,TableExec.groupChunk] using hc⟩
  · rintro ⟨s,hl,htemplate,hc⟩
    obtain ⟨⟨cols,key⟩,ht⟩ := Option.isSome_iff_exists.mp htemplate
    obtain ⟨n,rfl⟩ := h.minted sid _ hl
    have hrows := chunk_ne_nil hc
    have hskip : stamp.skips s.gate = false := by
      by_contra hs
      simp [Live.chunk,hs] at hc
    -- a row that matches leads to the bucket of the shape
    obtain ⟨t,ht'⟩ := List.exists_mem_of_ne_nil _ hrows
    have hkey := (template_iff ht t.1).mp (List.mem_filter.mp ht').2
    have hin : s.routed n ∈ T.families.bucket cols (keyOf t.1 cols) := by
      refine List.mem_of_mem_filter (p := (·.numId == n)) ?_
      rw [h.families,Registry.routedAt,hl,Option.bind_some,Live.routedAt,ht,Option.bind_some,
        if_pos ⟨rfl,BEq.symm hkey⟩]
      exact List.mem_singleton_self _
    obtain ⟨cols',index,-,-,hcols,hmem,-⟩ := Buckets.exists_of_mem_bucket hin
    obtain rfl := eq_of_beq hcols
    have hget := (h.get?_byShape hmem delta stamp n _ _).mpr ⟨s,key,hl,ht,hskip,rfl,rfl,hrows⟩
    exact ⟨(cols',index),hmem,(n,(s.streamPath,s.outCols),evalStandalone s.pred delta),
      (AssocMap.mem_entries _ _ _).mpr hget,c,
      by simpa [Live.chunk,hskip,TableExec.groupChunk] using hc,rfl,rfl⟩

lemma nodup_routedTagged (h : Refines T R) (delta : Delta) (stamp : Stamp) :
    ((T.routedTagged delta stamp).map (·.1)).Nodup := by
  rw [TableExec.routedTagged]
  refine T.families.nodup_flatMap (InFamily R) (fun _ _ _ => inFamily_unique) ?_ ?_
  · intro e _
    have hids := (TableExec.byShape stamp delta e.1 e.2).nodup_keys.map fun _ _ => shapeId_inj.mp
    rw [AssocMap.keys,List.map_map] at hids
    have htags := AssocMap.tags_sublist (TableExec.byShape stamp delta e.1 e.2).entries
      (fun x => shapeId x.1) fun x => TableExec.groupChunk T.ts stamp x.2
    exact hids.sublist htags
  · rintro ⟨cols,index⟩ hmem ⟨sid,c⟩ hx
    obtain ⟨⟨n,group⟩,hrows,hc⟩ := List.mem_filterMap.mp hx
    obtain ⟨c',-,hc⟩ := Option.map_eq_some_iff.mp hc
    obtain ⟨rfl,-⟩ := Prod.mk.injEq .. ▸ hc
    obtain ⟨s,key,hl,ht,-⟩ :=
      (h.get?_byShape hmem delta stamp n _ _).mp ((AssocMap.mem_entries _ _ _).mp hrows)
    exact ⟨s,key,hl,ht⟩

/-- Chunks of the filtered shapes and of the routed shapes, each shape once, are those of a scan. -/
lemma perm_scan (h : Refines T R) {γ : Type} {chunk : Live → Option γ} {filtered routed : List (String × γ)}
    (hagg : ∀ a, chunk (.aggregate a) = none)
    (hfiltered : (filtered.map (·.1)).Nodup) (hrouted : (routed.map (·.1)).Nodup)
    (memFiltered : ∀ sid c, (sid,c) ∈ filtered ↔
      ∃ s, T.shapes.get? sid = some s ∧ chunk (.plain s) = some c)
    (memRouted : ∀ sid c, (sid,c) ∈ routed ↔
      ∃ s, R.live.get? sid = some (.plain s) ∧ s.template.isSome = true ∧ chunk (.plain s) = some c) :
    ((filtered ++ routed).map (·.2)).Perm (R.live.entries.filterMap fun e => chunk e.2) := by
  have hshapes : ∀ sid s, T.shapes.get? sid = some s ↔
      R.live.get? sid = some (.plain s) ∧ s.template = none := by
    intro sid s
    rw [h.shapes,Option.bind_eq_some_iff]
    constructor
    · rintro ⟨l,hl,hs⟩
      cases l with
      | aggregate a => cases hs
      | plain s' =>
        rw [Live.standalone] at hs
        split_ifs at hs with ht
        obtain rfl := Option.some.inj hs
        exact ⟨hl,Option.isNone_iff_eq_none.mp ht⟩
    · rintro ⟨hl,ht⟩
      exact ⟨_,hl,by simp [Live.standalone,ht]⟩
  have hnodup : ((filtered ++ routed).map (·.1)).Nodup := by
    rw [List.map_append,List.nodup_append]
    refine ⟨hfiltered,hrouted,?_⟩
    rintro _ hx _ hy rfl
    obtain ⟨⟨sid,c⟩,hmem,rfl⟩ := List.mem_map.mp hx
    obtain ⟨⟨sid',c'⟩,hmem',heq⟩ := List.mem_map.mp hy
    obtain rfl : sid' = sid := heq
    obtain ⟨s,hs,-⟩ := (memFiltered _ _).mp hmem
    obtain ⟨s',hl',ht',-⟩ := (memRouted _ _).mp hmem'
    obtain ⟨hl,ht⟩ := (hshapes _ _).mp hs
    simp_all
  have hperm := R.live.perm_filterMap (fun _ l => chunk l) hnodup fun sid c => by
    rw [List.mem_append,memFiltered,memRouted]
    constructor
    · rintro (⟨s,hs,hc⟩ | ⟨s,hl,-,hc⟩)
      · exact ⟨_,((hshapes sid s).mp hs).1,hc⟩
      · exact ⟨_,hl,hc⟩
    · rintro ⟨l,hl,hc⟩
      cases l with
      | aggregate a => cases (hagg a).symm.trans hc
      | plain s =>
        cases ht : s.template with
        | none => exact .inl ⟨s,(hshapes sid s).mpr ⟨hl,ht⟩,hc⟩
        | some t => exact .inr ⟨s,hl,by simp [ht],hc⟩
  have hmap := hperm.map (·.2)
  rw [List.map_filterMap] at hmap
  simpa [Option.map_map,Function.comp_def] using hmap

/-- A delta's chunks for the plain shapes. -/
theorem perm_plainOutput (h : Refines T R) (key : String) (delta : Delta) (stamp : Stamp)
    (traced : Bool) :
    (T.standaloneOutput delta stamp traced ++ T.routedOutput delta stamp : Staged).appends.Perm
      (R.plainOutput T.ts key delta stamp false).appends := by
  have hsplit : (T.standaloneOutput delta stamp traced ++ T.routedOutput delta stamp : Staged).appends =
      (T.standaloneTagged delta stamp traced ++ T.routedTagged delta stamp).map (·.2) := by
    rw [List.map_append,← T.appends_standaloneOutput,← T.appends_routedOutput]
    exact List.filter_append ..
  rw [hsplit,appends_plainOutput]
  exact h.perm_scan (fun _ => rfl) (nodup_standaloneTagged T delta stamp traced)
    (h.nodup_routedTagged delta stamp) (fun _ _ => h.mem_standaloneTagged)
    fun _ _ => h.mem_routedTagged

/-- The shapes in a bucket. -/
lemma mem_bucket (h : Refines T R) {cols : List ℕ} {key : Row} {rs : RoutedShape} :
    rs ∈ T.families.bucket cols key ↔ ∃ s key', R.live.get? (shapeId rs.numId) = some (.plain s) ∧
      s.template = some (cols,key') ∧ (key' == key) = true ∧ rs = s.routed rs.numId := by
  have hmem : rs ∈ T.families.bucket cols key ↔ R.routedAt cols key rs.numId = some rs := by
    rw [← Option.mem_toList,← h.families,List.mem_filter]
    simp
  rw [hmem,Registry.routedAt,Option.bind_eq_some_iff]
  constructor
  · rintro ⟨l,hl,hrs⟩
    cases l with
    | aggregate a => cases hrs
    | plain s =>
      obtain ⟨⟨cols',key'⟩,ht,hat⟩ := Option.bind_eq_some_iff.mp hrs
      split_ifs at hat with hkey
      obtain ⟨rfl,hkey⟩ := hkey
      exact ⟨s,key',hl,ht,hkey,(Option.some.inj hat).symm⟩
  · rintro ⟨s,key',hl,ht,hkey,hrs⟩
    exact ⟨_,hl,by simp [Live.routedAt,ht,hkey,← hrs]⟩

lemma nodup_bucket (h : Refines T R) (cols : List ℕ) (key : Row) :
    ((T.families.bucket cols key).map fun rs => shapeId rs.numId).Nodup := by
  have hids : ((T.families.bucket cols key).map (·.numId)).Nodup := by
    refine List.nodup_iff_count_le_one.mpr fun n => ?_
    rw [List.count_eq_countP,List.countP_map,List.countP_eq_length_filter]
    have hlen : ((R.routedAt cols key n).toList).length ≤ 1 := by
      cases R.routedAt cols key n <;> simp
    rwa [← h.families] at hlen
  have hmap := hids.map fun _ _ => shapeId_inj.mp
  rwa [List.map_map] at hmap

end Refines

/-- What one live shape appends when its membership is stated outright. -/
def Live.absoluteChunk (ts : TableSchema) (key : String) (delta : Delta) (stamp : Stamp) :
    Live → Option (String × List Envelope)
  | .plain s =>
    if stamp.skips s.gate then none
    else
      let held := (TableExec.rowNow delta).filter fun r => s.pred.matchesRow r
      some (s.streamPath,[absoluteEnvelope ts key held stamp.txid stamp.lsn s.outCols])
  | .aggregate _ => none

namespace TableExec

/-- What a shape registered on a key appends. -/
def routedChunk (ts : TableSchema) (key : String) (delta : Delta) (stamp : Stamp) (cols : List ℕ)
    (routeKey : Row) (rs : RoutedShape) : Option (String × List Envelope) :=
  if stamp.skips rs.gate then none
  else
    let held := (rowNow delta).filter fun r => keyOf r cols == routeKey
    some (rs.streamPath,[absoluteEnvelope ts key held stamp.txid stamp.lsn rs.outCols])

/-- The outright chunks of the filtered shapes, by shape. -/
def filteredAbsolute (T : TableExec) (key : String) (delta : Delta) (stamp : Stamp) :
    List (String × String × List Envelope) :=
  T.shapes.entries.filterMap fun e =>
    ((Live.plain e.2).absoluteChunk T.ts key delta stamp).map (e.1,·)

/-- The outright chunks of the routed shapes, by shape. -/
def routedAbsolute (T : TableExec) (key : String) (delta : Delta) (stamp : Stamp) :
    List (String × String × List Envelope) :=
  T.families.entries.flatMap fun e => e.2.entries.flatMap fun b => b.2.filterMap fun rs =>
    (routedChunk T.ts key delta stamp e.1 b.1 rs).map (shapeId rs.numId,·)

lemma absoluteOutput_eq (T : TableExec) (key : String) (delta : Delta) (stamp : Stamp) :
    T.absoluteOutput key delta stamp =
      (T.filteredAbsolute key delta stamp ++ T.routedAbsolute key delta stamp).map (·.2) := by
  rw [List.map_append,absoluteOutput,filteredAbsolute,routedAbsolute,List.map_flatMap]
  simp only [List.map_filterMap,List.map_flatMap,Option.map_map]
  congr 1
  · refine List.filterMap_congr fun e _ => ?_
    rw [Live.absoluteChunk]
    split_ifs <;> rfl
  · refine List.flatMap_congr fun e _ => List.flatMap_congr fun b _ => ?_
    refine List.filterMap_congr fun rs _ => ?_
    rw [routedChunk]
    split_ifs <;> rfl

end TableExec

namespace Refines
variable {T : TableExec} {R : Registry}

lemma mem_filteredAbsolute {key : String} {delta : Delta} {stamp : Stamp}
    {sid : String} {c : String × List Envelope} : (sid,c) ∈ T.filteredAbsolute key delta stamp ↔
      ∃ s, T.shapes.get? sid = some s ∧ (Live.plain s).absoluteChunk T.ts key delta stamp = some c := by
  simp only [TableExec.filteredAbsolute,List.mem_filterMap,Option.map_eq_some_iff,Prod.mk.injEq,
    ← AssocMap.mem_entries]
  constructor
  · rintro ⟨⟨_,s⟩,hs,_,hc,rfl,rfl⟩
    exact ⟨s,hs,hc⟩
  · rintro ⟨s,hs,hc⟩
    exact ⟨(sid,s),hs,c,hc,rfl,rfl⟩

/-- On a routed shape the key speaks for the predicate. -/
lemma routedChunk_eq {s : StandaloneShape} {cols : List ℕ} {key' routeKey : Row}
    (ht : s.template = some (cols,key')) (hkey : (key' == routeKey) = true) (ts : TableSchema)
    (key : String) (delta : Delta) (stamp : Stamp) (n : ℕ) :
    TableExec.routedChunk ts key delta stamp cols routeKey (s.routed n) =
      (Live.plain s).absoluteChunk ts key delta stamp := by
  have hrow : ∀ r, (keyOf r cols == routeKey) = s.pred.matchesRow r := by
    intro r
    rw [Bool.eq_iff_iff,template_iff ht,BEq.congr_right hkey]
  simp only [TableExec.routedChunk,Live.absoluteChunk,StandaloneShape.routed,hrow]

/-- Where a routed shape stands: in a bucket of its family, under a key equal to its own. -/
lemma mem_routedAbsolute (h : Refines T R) {key : String} {delta : Delta} {stamp : Stamp}
    {sid : String} {c : String × List Envelope} : (sid,c) ∈ T.routedAbsolute key delta stamp ↔
      ∃ s, R.live.get? sid = some (.plain s) ∧ s.template.isSome = true ∧
        (Live.plain s).absoluteChunk T.ts key delta stamp = some c := by
  simp only [TableExec.routedAbsolute,List.mem_flatMap,List.mem_filterMap,Option.map_eq_some_iff,
    Prod.mk.injEq]
  constructor
  · rintro ⟨⟨cols,index⟩,hmem,⟨k,routed⟩,hb,rs,hrs,_,hc,rfl,rfl⟩
    have hin : rs ∈ T.families.bucket cols k := by
      rw [Buckets.bucket,AssocMap.get?_of_mem hmem,Option.bind_some,AssocMap.get?_of_mem hb]
      exact hrs
    obtain ⟨s,key',hl,ht,hkey,hrouted⟩ := h.mem_bucket.mp hin
    rw [hrouted,routedChunk_eq ht hkey] at hc
    exact ⟨s,hl,by simp [ht],hc⟩
  · rintro ⟨s,hl,htemplate,hc⟩
    obtain ⟨⟨cols,key'⟩,ht⟩ := Option.isSome_iff_exists.mp htemplate
    obtain ⟨n,rfl⟩ := h.minted sid _ hl
    have hin : s.routed n ∈ T.families.bucket cols key' :=
      h.mem_bucket.mpr ⟨s,key',hl,ht,BEq.rfl,rfl⟩
    obtain ⟨cols',index,k,routed,hcols,hmem,hk,hb,-,hrs⟩ := Buckets.exists_of_mem_bucket hin
    obtain rfl := eq_of_beq hcols
    exact ⟨(cols',index),hmem,(k,routed),hb,s.routed n,hrs,c,
      by rw [routedChunk_eq ht (BEq.symm hk),hc],rfl,rfl⟩

lemma nodup_routedAbsolute (h : Refines T R) (key : String) (delta : Delta) (stamp : Stamp) :
    ((T.routedAbsolute key delta stamp).map (·.1)).Nodup := by
  have howner : ∀ e ∈ T.families.entries, ∀ b ∈ e.2.entries, ∀ rs ∈ b.2, ∃ s key',
      R.live.get? (shapeId rs.numId) = some (.plain s) ∧ s.template = some (e.1,key') ∧
        (key' == b.1) = true := by
    rintro ⟨cols,index⟩ hmem ⟨k,routed⟩ hb rs hrs
    have hin : rs ∈ T.families.bucket cols k := by
      rw [Buckets.bucket,AssocMap.get?_of_mem hmem,Option.bind_some,AssocMap.get?_of_mem hb]
      exact hrs
    obtain ⟨s,key',hl,ht,hkey,-⟩ := h.mem_bucket.mp hin
    exact ⟨s,key',hl,ht,hkey⟩
  rw [TableExec.routedAbsolute]
  refine T.families.nodup_flatMap (InFamily R) (fun _ _ _ => inFamily_unique) ?_ ?_
  · intro e he
    refine e.2.nodup_flatMap
      (fun sid k => ∃ s key', R.live.get? sid = some (.plain s) ∧ s.template = some (e.1,key') ∧
        (key' == k) = true) ?_ ?_ ?_
    · rintro sid k k' ⟨s,key',hl,ht,hk⟩ ⟨s',key'',hl',ht',hk'⟩
      obtain rfl : s = s' := by simpa [hl] using hl'
      obtain rfl : key' = key'' := by simpa [ht] using ht'
      exact BEq.trans (BEq.symm hk) hk'
    · rintro ⟨k,routed⟩ hb
      have hnodup := h.nodup_bucket e.1 k
      rw [Buckets.bucket,AssocMap.get?_of_mem he,Option.bind_some,AssocMap.get?_of_mem hb,
        Option.getD_some] at hnodup
      exact hnodup.sublist (AssocMap.tags_sublist routed (fun rs => shapeId rs.numId)
        (TableExec.routedChunk T.ts key delta stamp e.1 k))
    · rintro b hb ⟨sid,c⟩ hx
      obtain ⟨rs,hrs,hc⟩ := List.mem_filterMap.mp hx
      obtain ⟨c',-,hc⟩ := Option.map_eq_some_iff.mp hc
      obtain ⟨rfl,-⟩ := Prod.mk.injEq .. ▸ hc
      exact howner e he b hb rs hrs
  · rintro e he ⟨sid,c⟩ hx
    obtain ⟨b,hb,hx⟩ := List.mem_flatMap.mp hx
    obtain ⟨rs,hrs,hc⟩ := List.mem_filterMap.mp hx
    obtain ⟨c',-,hc⟩ := Option.map_eq_some_iff.mp hc
    obtain ⟨rfl,-⟩ := Prod.mk.injEq .. ▸ hc
    obtain ⟨s,key',hl,ht,-⟩ := howner e he b hb rs hrs
    exact ⟨s,key',hl,ht⟩

/-- The outright chunks of the plain shapes. -/
theorem perm_absoluteOutput (h : Refines T R) (key : String) (delta : Delta) (stamp : Stamp) :
    (T.absoluteOutput key delta stamp).Perm (R.plainOutput T.ts key delta stamp true) := by
  have hscan : R.plainOutput T.ts key delta stamp true =
      R.live.entries.filterMap fun e => e.2.absoluteChunk T.ts key delta stamp := by
    refine List.filterMap_congr ?_
    rintro ⟨sid,l⟩ _
    cases l <;> rfl
  have hfiltered : ((T.filteredAbsolute key delta stamp).map (·.1)).Nodup :=
    T.shapes.nodup_keys.sublist (AssocMap.tags_sublist T.shapes.entries (·.1) fun e =>
      (Live.plain e.2).absoluteChunk T.ts key delta stamp)
  rw [T.absoluteOutput_eq,hscan]
  exact h.perm_scan (fun _ => rfl) hfiltered (h.nodup_routedAbsolute key delta stamp)
    (fun _ _ => mem_filteredAbsolute) fun _ _ => h.mem_routedAbsolute

@[simp] lemma step_pred (a : AggShape) (ts : TableSchema) (delta : Delta) (txid lsn : Option String) :
    (a.step ts delta txid lsn).1.pred = a.pred := by
  rw [AggShape.step]
  dsimp only
  split_ifs <;> rfl

/-- An aggregate that is no candidate would not move. -/
lemma step_of_not_candidate (h : Refines T R) {sid : String} {a : AggShape}
    (ha : R.live.get? sid = some (.aggregate a)) {delta : Delta}
    (hsid : sid ∉ T.aggIndex.candidates delta) (ts : TableSchema) (txid lsn : Option String) :
    a.step ts delta txid lsn = (a,none) := by
  refine AggShape.step_of_no_match (fun t ht => ?_) ts txid lsn
  by_contra hm
  refine hsid (h.aggIndex.mem_candidates ?_ ht ((Bool.not_eq_false _).mp hm))
  simp [h.aggregates,ha,Live.agg]

lemma get?_aggregates (h : Refines T R) {sid : String} {a : AggShape} :
    T.aggregates.get? sid = some a ↔ R.live.get? sid = some (.aggregate a) := by
  rw [h.aggregates,Option.bind_eq_some_iff]
  constructor
  · rintro ⟨l,hl,ha⟩
    cases l with
    | plain s => cases ha
    | aggregate a' => exact hl.trans (congrArg _ (congrArg _ (Option.some.inj ha)))
  · exact fun hl => ⟨_,hl,rfl⟩

/-- A delta's chunks for the aggregates. -/
theorem perm_aggregateOutput (h : Refines T R) (delta : Delta) (stamp : Stamp) (traced : Bool) :
    (T.aggregateOutput delta stamp traced).2.Perm (R.foldAggregates T.ts delta stamp).2 := by
  let visited (sid : String) (a : AggShape) : Option (String × List Envelope) :=
    if (traced || sid ∈ T.aggIndex.candidates delta) && !stamp.skips a.gate then
      (a.step T.ts delta stamp.txid stamp.lsn).2.map fun env => (a.streamPath,[env])
    else none
  let folded : Live → Option (String × List Envelope)
    | .plain _ => none
    | .aggregate a =>
      if stamp.skips a.gate then none
      else (a.step T.ts delta stamp.txid stamp.lsn).2.map fun env => (a.streamPath,[env])
  have hsame : ∀ sid a, R.live.get? sid = some (.aggregate a) → visited sid a = folded (.aggregate a) := by
    intro sid a ha
    by_cases hsid : sid ∈ T.aggIndex.candidates delta
    · cases hs : stamp.skips a.gate <;> simp [visited,folded,hsid,hs]
    · have hstep := h.step_of_not_candidate ha hsid T.ts stamp.txid stamp.lsn
      simp [visited,folded,hstep]
  have hnodup : ((T.aggregates.entries.filterMap fun e =>
      (visited e.1 e.2).map (e.1,·)).map (·.1)).Nodup :=
    T.aggregates.nodup_keys.sublist
      (AssocMap.tags_sublist T.aggregates.entries (·.1) fun e => visited e.1 e.2)
  have hperm := R.live.perm_filterMap (fun _ l => folded l) hnodup fun sid c => by
    simp only [List.mem_filterMap,Option.map_eq_some_iff,Prod.mk.injEq]
    constructor
    · rintro ⟨⟨_,a⟩,ha,_,hc,rfl,rfl⟩
      have hl := h.get?_aggregates.mp ((AssocMap.mem_entries _ _ _).mp ha)
      exact ⟨_,hl,(hsame _ a hl).symm.trans hc⟩
    · rintro ⟨l,hl,hc⟩
      cases l with
      | plain s => cases hc
      | aggregate a =>
        exact ⟨(sid,a),(AssocMap.mem_entries _ _ _).mpr (h.get?_aggregates.mpr hl),c,
          (hsame sid a hl).trans hc,rfl,rfl⟩
  have hmap := hperm.map (·.2)
  simp only [List.map_filterMap,Option.map_map,Function.comp_def,Option.map_id'] at hmap
  refine hmap.trans (List.Perm.of_eq ?_)
  refine List.filterMap_congr ?_
  rintro ⟨sid,l⟩ _
  cases l <;> rfl

/-- Folding a delta keeps the aggregates of the registry. -/
lemma aggregateOutput (h : Refines T R) (delta : Delta) (stamp : Stamp) (traced : Bool) :
    Refines (T.aggregateOutput delta stamp traced).1 (R.foldAggregates T.ts delta stamp).1 := by
  have hlive : ∀ sid, (R.foldAggregates T.ts delta stamp).1.live.get? sid =
      (R.live.get? sid).map fun
        | .plain s => .plain s
        | .aggregate a =>
          if stamp.skips a.gate then .aggregate a
          else .aggregate (a.step T.ts delta stamp.txid stamp.lsn).1 :=
    fun sid => AssocMap.get?_mapValues _ _ sid
  have hagg : ∀ sid, (T.aggregateOutput delta stamp traced).1.aggregates.get? sid =
      (T.aggregates.get? sid).map fun a =>
        if (traced || sid ∈ T.aggIndex.candidates delta) && !stamp.skips a.gate then
          (a.step T.ts delta stamp.txid stamp.lsn).1 else a :=
    fun sid => AssocMap.get?_mapValues _ _ sid
  refine ⟨h.pending,?_,?_,?_,h.shapeIndex,?_,h.numbered,?_,?_,?_⟩
  · intro sid p hp
    obtain ⟨hsid,hnone⟩ := h.creating sid p hp
    exact ⟨hsid,by simp [hlive,hnone]⟩
  · intro sid l hl
    rw [hlive] at hl
    obtain ⟨l',hl',-⟩ := Option.map_eq_some_iff.mp hl
    exact h.minted sid l' hl'
  · intro sid
    refine (h.shapes sid).trans ?_
    rw [hlive]
    rcases R.live.get? sid with _ | _ | a
    · rfl
    · rfl
    · cases hs : stamp.skips a.gate <;> simp [hs,Live.standalone]
  · intro n
    refine (h.familyOf n).trans ?_
    rw [hlive]
    rcases R.live.get? (shapeId n) with _ | _ | a
    · rfl
    · rfl
    · cases hs : stamp.skips a.gate <;> simp [hs]
  · intro cols key n
    refine (h.families cols key n).trans (congrArg _ ?_)
    rw [Registry.routedAt,Registry.routedAt,hlive]
    rcases R.live.get? (shapeId n) with _ | _ | a
    · rfl
    · rfl
    · cases hs : stamp.skips a.gate <;> simp [hs,Live.routedAt]
  · intro sid
    rw [hagg,hlive,h.aggregates]
    rcases hl : R.live.get? sid with _ | _ | a
    · rfl
    · rfl
    · by_cases hsid : sid ∈ T.aggIndex.candidates delta
      · cases hs : stamp.skips a.gate <;> simp [hs,hsid,Live.agg]
      · have hstep := h.step_of_not_candidate hl hsid T.ts stamp.txid stamp.lsn
        simp [hstep,Live.agg]
  · have hpreds : (fun sid => ((T.aggregateOutput delta stamp traced).1.aggregates.get? sid).map
        (·.pred)) = fun sid => (T.aggregates.get? sid).map (·.pred) := by
      funext sid
      rw [hagg,Option.map_map]
      cases T.aggregates.get? sid with
      | none => rfl
      | some a =>
        simp only [Option.map_some,Function.comp_apply]
        split_ifs <;> simp
    rw [hpreds]
    exact h.aggIndex

end Refines

/-- An executor that the sequencer's commands and changes lead to, in any order, with the registry that
the same commands lead to. A creation takes the id that belongs to its number, and the caller does not
begin one under an id that is live. -/
inductive TableExec.Reachable : TableExec → Registry → Prop where
  | start (ts : TableSchema) : TableExec.Reachable (.new ts) .empty
  | beginShape {T R} (h : TableExec.Reachable T R) (numId : ℕ) (path : String)
      (pred : CompiledPredicate) (outCols : Option (List ℕ)) (kind : CreateKind)
      (hnew : R.live.get? (shapeId numId) = none) :
      TableExec.Reachable (T.beginShape (shapeId numId) numId path pred outCols kind)
        (R.beginShape (shapeId numId) ⟨numId,path,pred,outCols,kind,[],0,false⟩)
  | abortShape {T R} (h : TableExec.Reachable T R) (sid : String) :
      TableExec.Reachable (T.abortShape sid) (R.abortShape sid)
  | activateShape {T R} (h : TableExec.Reachable T R) (sid : String) (gate : SnapshotGate)
      (aggSeed : Option AggSeed) (appended : Bool) :
      TableExec.Reachable (T.activateShape sid gate aggSeed appended).1
        (R.activateShape T.ts sid gate aggSeed appended)
  | deactivateShape {T R} (h : TableExec.Reachable T R) (sid : String) :
      TableExec.Reachable (T.deactivateShape sid).1 (R.deactivateShape sid).1
  | removeShape {T R} (h : TableExec.Reachable T R) (sid : String) :
      TableExec.Reachable (T.removeShape sid) (R.removeShape sid)
  | receive {T R} (h : TableExec.Reachable T R) (cost : Envelope → ℕ) (cap : ℕ) (env : Envelope)
      (libraryMode : Bool) :
      TableExec.Reachable (T.receive cost cap env libraryMode).1
        (R.receive cost cap (T.receive cost cap env libraryMode).2)
  | processEnvelope {T R T' R' staged scanned} (h : TableExec.Reachable T R) (env : Envelope)
      (libraryMode traced : Bool) (registry : Except String Unit)
      (hT : T.processEnvelope env libraryMode traced registry = .ok (T',staged))
      (hR : R.processEnvelope T.ts env libraryMode registry = .ok (R',scanned)) :
      TableExec.Reachable T' R'

/-- The executor and the scan fail alike, or they append the same chunks and stay together. -/
inductive SameFanOut : Except String (TableExec × Staged) → Except String (Registry × Staged) → Prop where
  | failed (e : String) : SameFanOut (.error e) (.error e)
  | appended {T R} {staged scanned : Staged} (hperm : staged.appends.Perm scanned.appends)
      (h : Refines T R) : SameFanOut (.ok (T,staged)) (.ok (R,scanned))

lemma Refines.processEnvelope {T : TableExec} {R : Registry} (h : Refines T R) (env : Envelope)
    (libraryMode traced : Bool) (registry : Except String Unit) :
    SameFanOut (T.processEnvelope env libraryMode traced registry)
      (R.processEnvelope T.ts env libraryMode registry) := by
  rw [TableExec.processEnvelope,Registry.processEnvelope]
  cases henv : applyEnvelope T.ts env with
  | error e => exact .failed e
  | ok r =>
    obtain ⟨delta,txid,lsn⟩ := r
    dsimp only
    generalize (libraryMode && needsAbsoluteEmission env) = absolute
    -- the plain shapes, in either mode of emission
    have hplain : (if absolute = true then T.absoluteOutput env.key delta ⟨txid,lsn⟩
        else T.standaloneOutput delta ⟨txid,lsn⟩ traced ++ T.routedOutput delta ⟨txid,lsn⟩ :
          Staged).appends.Perm (R.plainOutput T.ts env.key delta ⟨txid,lsn⟩ absolute).appends := by
      cases absolute with
      | false => exact h.perm_plainOutput env.key delta ⟨txid,lsn⟩ traced
      | true => exact (h.perm_absoluteOutput env.key delta ⟨txid,lsn⟩).filter _
    generalize (if absolute = true then T.absoluteOutput env.key delta ⟨txid,lsn⟩
      else T.standaloneOutput delta ⟨txid,lsn⟩ traced ++ T.routedOutput delta ⟨txid,lsn⟩) = plain
      at hplain ⊢
    split_ifs with hnone hempty
    · exact .appended (List.Perm.refl _) h
    · exact .appended hplain h
    · cases registry with
      | error e => exact .failed e
      | ok u =>
        refine .appended ?_ (h.aggregateOutput delta ⟨txid,lsn⟩ traced)
        rw [Staged.appends,Staged.appends,List.filter_append,List.filter_append]
        exact hplain.append ((h.perm_aggregateOutput delta ⟨txid,lsn⟩ traced).filter _)

/-- Every reachable executor routes for the registry of its live shapes. -/
theorem TableExec.Reachable.refines {T : TableExec} {R : Registry}
    (h : TableExec.Reachable T R) : Refines T R := by
  induction h with
  | start ts => exact .start ts
  | beginShape _ numId path pred outCols kind hnew ih => exact ih.beginShape hnew path pred outCols kind
  | abortShape _ sid ih => exact ih.abortShape sid
  | activateShape _ sid gate aggSeed appended ih => exact ih.activateShape sid gate aggSeed appended
  | deactivateShape _ sid ih => exact (ih.deactivateShape sid).1
  | removeShape _ sid ih => exact ih.removeShape sid
  | receive _ cost cap env libraryMode ih => exact ih.receive cost cap env libraryMode
  | processEnvelope _ env libraryMode traced registry hT hR ih =>
    have hsame := ih.processEnvelope env libraryMode traced registry
    rw [hT,hR] at hsame
    cases hsame with
    | appended _ h => exact h

/-- The indexed fan-out is the naive scan of the live shapes: on every envelope, on every delta, and for
a routed shape on every row. -/
theorem fan_out {T : TableExec} {R : Registry} (h : TableExec.Reachable T R) :
    (∀ env libraryMode traced registry,
      SameFanOut (T.processEnvelope env libraryMode traced registry)
        (R.processEnvelope T.ts env libraryMode registry)) ∧
    (∀ key delta stamp traced,
      (T.standaloneOutput delta stamp traced ++ T.routedOutput delta stamp : Staged).appends.Perm
          (R.plainOutput T.ts key delta stamp false).appends ∧
        (T.aggregateOutput delta stamp traced).2.Perm (R.foldAggregates T.ts delta stamp).2) ∧
    ∀ n s pairs, R.live.get? (shapeId n) = some (.plain s) → s.pred.equalityTemplate = some pairs →
      ∀ row, s.routed n ∈ T.families.bucket (pairs.map (·.1)) (keyOf row (pairs.map (·.1))) ↔
        s.pred.matchesRow row = true := by
  have hrefines := h.refines
  refine ⟨hrefines.processEnvelope,fun key delta stamp traced =>
    ⟨hrefines.perm_plainOutput key delta stamp traced,
      hrefines.perm_aggregateOutput delta stamp traced⟩,?_⟩
  intro n s pairs hl hpairs row
  have ht : s.template = some (pairs.map (·.1),⟨pairs.map (·.2)⟩) := by
    simp [StandaloneShape.template,hpairs]
  rw [Refines.template_iff ht,hrefines.mem_bucket]
  constructor
  · rintro ⟨s',key',hl',ht',hkey,-⟩
    obtain rfl : s' = s := by simpa [StandaloneShape.routed,hl] using hl'.symm
    obtain rfl : key' = ⟨pairs.map (·.2)⟩ := by simpa [ht] using ht'.symm
    exact BEq.symm hkey
  · exact fun hkey => ⟨s,_,hl,ht,BEq.symm hkey,rfl⟩

def sampleInsert : Envelope :=
  ⟨"issues","1",some (.object [("id",.int 1),("level",.int 5)]),none,⟨"insert",none,none,none,none⟩⟩

/-- A shape on a bound, a shape on an equality and a count, as their creation left them. -/
theorem sample_fan_out : ∃ (T : TableExec) (R : Registry) (staged : Staged),
    T.shapes.keys = ["s2"] ∧ T.familyOf.keys = ["s1"] ∧ T.aggregates.keys = ["s3"] ∧
    (T.processEnvelope sampleInsert false false (.ok ())).map (·.2) = .ok staged ∧
    staged.appends.map (·.1) = ["shape/s2","shape/s1","shape/s3"] ∧
    SameFanOut (T.processEnvelope sampleInsert false false (.ok ()))
      (R.processEnvelope T.ts sampleInsert false (.ok ())) := by
  have h₁ := (TableExec.Reachable.start .sample).beginShape 1 "shape/s1" (.cmp 1 .eq (.int 5)) none
    .plain rfl
  have h₂ := (h₁.activateShape "s1" .passthrough none true).beginShape 2 "shape/s2"
    (.cmp 1 .gt (.int 3)) none .plain rfl
  have h₃ := (h₂.activateShape "s2" .passthrough none true).beginShape 3 "shape/s3"
    (.cmp 1 .lt (.int 9)) none (.aggregate .count none) rfl
  have h₄ := h₃.activateShape "s3" .passthrough none true
  exact ⟨_,_,_,by decide +kernel,by decide +kernel,by decide +kernel,rfl,by decide +kernel,
    (fan_out h₄).1 sampleInsert false false (.ok ())⟩

end ElectricCircuits
