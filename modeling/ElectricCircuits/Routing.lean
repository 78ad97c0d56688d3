import ElectricCircuits.NaiveScan

/-! The routing structures hold exactly the live shapes, each where its predicate puts it, whatever the
order in which shapes come and go. -/
namespace ElectricCircuits

/-- The family and the key that a shape is registered under. -/
def StandaloneShape.template (s : StandaloneShape) : Option (List ℕ × Row) :=
  s.pred.equalityTemplate.map fun pairs => (pairs.map (·.1),⟨pairs.map (·.2)⟩)

def StandaloneShape.routed (s : StandaloneShape) (numId : ℕ) : RoutedShape :=
  ⟨numId,s.streamPath,s.gate,s.outCols⟩

/-- What a shape is filtered as when no family takes it. -/
def Live.standalone : Live → Option StandaloneShape
  | .plain s => if s.template.isNone then some s else none
  | .aggregate _ => none

def Live.agg : Live → Option AggShape
  | .plain _ => none
  | .aggregate a => some a

/-- How a numbered shape stands in the bucket of a key. -/
def Live.routedAt (cols : List ℕ) (key : Row) (numId : ℕ) : Live → Option RoutedShape
  | .plain s => s.template.bind fun t =>
      if t.1 = cols ∧ (t.2 == key) = true then some (s.routed numId) else none
  | .aggregate _ => none

def Registry.routedAt (R : Registry) (cols : List ℕ) (key : Row) (numId : ℕ) : Option RoutedShape :=
  (R.live.get? (shapeId numId)).bind (·.routedAt cols key numId)

namespace Registry
variable (R : Registry) (m : ℕ) (l : Live)

@[simp] lemma live_add (sid sid' : String) :
    (R.add sid l).live.get? sid' = if sid = sid' then some l else R.live.get? sid' := by
  simp [add,AssocMap.get?_insert]

@[simp] lemma live_drop (sid sid' : String) :
    (R.drop sid).live.get? sid' = if sid = sid' then none else R.live.get? sid' := by
  simp [drop,AssocMap.get?_erase]

lemma routedAt_add (cols : List ℕ) (key : Row) (n : ℕ) : (R.add (shapeId m) l).routedAt cols key n =
    if m = n then l.routedAt cols key n else R.routedAt cols key n := by
  rw [routedAt,live_add]
  by_cases hn : m = n <;> simp [hn,routedAt]

lemma routedAt_drop (cols : List ℕ) (key : Row) (n : ℕ) : (R.drop (shapeId m)).routedAt cols key n =
    if m = n then none else R.routedAt cols key n := by
  rw [routedAt,live_drop]
  by_cases hn : m = n <;> simp [hn,routedAt]

end Registry

/-- What the executor keeps of a registry. -/
structure Refines (T : TableExec) (R : Registry) : Prop where
  pending : T.pending = R.pending
  creating : ∀ sid p, R.pending.get? sid = some p → sid = shapeId p.numId ∧ R.live.get? sid = none
  minted : ∀ sid l, R.live.get? sid = some l → ∃ n, sid = shapeId n
  shapes : ∀ sid, T.shapes.get? sid = (R.live.get? sid).bind Live.standalone
  shapeIndex : T.shapeIndex.Indexed fun sid => (T.shapes.get? sid).map (·.pred)
  familyOf : ∀ n, T.familyOf.get? (shapeId n) = (R.live.get? (shapeId n)).bind fun
    | .plain s => s.template.map fun t => (t.1,n,t.2)
    | .aggregate _ => none
  numbered : ∀ sid v, T.familyOf.get? sid = some v → sid = shapeId v.2.1
  families : ∀ cols key n, (T.families.bucket cols key).filter (·.numId == n) =
    (R.routedAt cols key n).toList
  aggregates : ∀ sid, T.aggregates.get? sid = (R.live.get? sid).bind Live.agg
  aggIndex : T.aggIndex.Indexed fun sid => (T.aggregates.get? sid).map (·.pred)

section
variable {α : Type*}

/-- Taking out the first item of a kind. -/
lemma filter_eraseP (l : List α) (p : α → Bool) : (l.eraseP p).filter p = (l.filter p).tail := by
  induction l with
  | nil => rfl
  | cons x l ih =>
    cases hx : p x with
    | true => simp [hx]
    | false => simpa [hx] using ih

lemma filter_eraseP_of_ne (l : List α) {p q : α → Bool} (h : ∀ x, p x = true → q x = false) :
    (l.eraseP p).filter q = l.filter q := by
  induction l with
  | nil => rfl
  | cons x l ih =>
    cases hx : p x with
    | true => simp [hx,h x hx]
    | false =>
      rw [List.eraseP_cons_of_neg (by simp [hx]),List.filter_cons,List.filter_cons,ih]

end

namespace Refines
variable {T : TableExec} {R : Registry}

lemma start (ts : TableSchema) : Refines (.new ts) .empty where
  pending := rfl
  creating := by simp [Registry.empty]
  minted := by simp [Registry.empty]
  shapes := by simp [TableExec.new,Registry.empty]
  shapeIndex := StandaloneIndex.indexed_empty
  familyOf := by simp [TableExec.new,Registry.empty]
  numbered := by simp [TableExec.new]
  families := by simp [TableExec.new,Registry.empty,Registry.routedAt]
  aggregates := by simp [TableExec.new,Registry.empty]
  aggIndex := StandaloneIndex.indexed_empty

/-- A shape whose creation begins is not live. -/
lemma beginShape (h : Refines T R) {numId : ℕ} (hlive : R.live.get? (shapeId numId) = none)
    (path : String) (pred : CompiledPredicate) (outCols : Option (List ℕ)) (kind : CreateKind) :
    Refines (T.beginShape (shapeId numId) numId path pred outCols kind)
      (R.beginShape (shapeId numId) ⟨numId,path,pred,outCols,kind,[],0,false⟩) :=
  { h with
    pending := by simp only [TableExec.beginShape,Registry.beginShape,h.pending]
    creating := by
      intro sid p hp
      simp only [Registry.beginShape,AssocMap.get?_insert] at hp
      split_ifs at hp with hs
      · obtain rfl := eq_of_beq hs
        obtain rfl := Option.some.inj hp
        exact ⟨rfl,hlive⟩
      · exact h.creating sid p hp }

lemma abortShape (h : Refines T R) (sid : String) : Refines (T.abortShape sid) (R.abortShape sid) :=
  { h with
    pending := by simp only [TableExec.abortShape,Registry.abortShape,h.pending]
    creating := by
      intro s p hp
      simp only [Registry.abortShape,AssocMap.get?_erase] at hp
      split_ifs at hp
      exact h.creating s p hp }

/-- A shape that comes live is no longer pending. -/
lemma creating_add (h : Refines T R) {numId : ℕ} (hp : R.pending.get? (shapeId numId) = none) (l : Live)
    (sid : String) (p : PendingShape) (hq : R.pending.get? sid = some p) :
    sid = shapeId p.numId ∧ (R.add (shapeId numId) l).live.get? sid = none := by
  obtain ⟨hsid,hnone⟩ := h.creating sid p hq
  have hne : shapeId numId ≠ sid := by
    rintro rfl
    simp [hp] at hq
  exact ⟨hsid,by simp [hne,hnone]⟩

lemma minted_add (h : Refines T R) (numId : ℕ) (l : Live) (sid : String) (l' : Live)
    (hl : (R.add (shapeId numId) l).live.get? sid = some l') : ∃ n, sid = shapeId n := by
  rw [Registry.live_add] at hl
  split_ifs at hl with hs
  · exact ⟨numId,hs.symm⟩
  · exact h.minted sid l' hl

/-- A plain shape goes where its predicate puts it. -/
lemma place (h : Refines T R) {p : PendingShape} (hlive : R.live.get? (shapeId p.numId) = none)
    (hpending : R.pending.get? (shapeId p.numId) = none) (gate : SnapshotGate) :
    Refines (T.place (shapeId p.numId) p gate)
      (R.add (shapeId p.numId) (.plain ⟨p.pred,p.streamPath,gate,p.outCols⟩)) := by
  have hshapes := h.shapes (shapeId p.numId)
  have hfamily := h.familyOf p.numId
  have hagg := h.aggregates (shapeId p.numId)
  simp only [hlive,Option.bind_none] at hshapes hfamily hagg
  have haggs : ∀ sid, T.aggregates.get? sid = ((R.add (shapeId p.numId)
      (.plain ⟨p.pred,p.streamPath,gate,p.outCols⟩)).live.get? sid).bind Live.agg := by
    intro sid
    by_cases hs : shapeId p.numId = sid
    · subst hs
      simp [hagg,Live.agg]
    · simp [hs,h.aggregates]
  rw [TableExec.place]
  cases heq : p.pred.equalityTemplate with
  | none =>
    have ht : StandaloneShape.template ⟨p.pred,p.streamPath,gate,p.outCols⟩ = none := by
      simp [StandaloneShape.template,heq]
    refine ⟨h.pending,h.creating_add hpending _,h.minted_add _ _,?_,?_,?_,h.numbered,?_,haggs,
      h.aggIndex⟩
    · intro sid
      by_cases hs : shapeId p.numId = sid <;>
        simp [AssocMap.get?_insert,hs,h.shapes,Live.standalone,ht]
    · have hidx := h.shapeIndex.insert (shapeId p.numId) (by simp [hshapes]) p.pred
      convert hidx using 2 with sid
      by_cases hs : shapeId p.numId = sid <;> simp [AssocMap.get?_insert,hs]
    · intro n
      by_cases hn : p.numId = n
      · subst hn
        simp [hfamily,ht]
      · simp [hn,h.familyOf]
    · intro cols key n
      rw [h.families,Registry.routedAt_add]
      by_cases hn : p.numId = n
      · subst hn
        simp [Registry.routedAt,hlive,Live.routedAt,ht]
      · rw [if_neg hn]
  | some pairs =>
    have ht : StandaloneShape.template ⟨p.pred,p.streamPath,gate,p.outCols⟩ =
        some (pairs.map (·.1),⟨pairs.map (·.2)⟩) := by simp [StandaloneShape.template,heq]
    refine ⟨h.pending,h.creating_add hpending _,h.minted_add _ _,?_,h.shapeIndex,?_,?_,?_,haggs,
      h.aggIndex⟩
    · intro sid
      by_cases hs : shapeId p.numId = sid
      · subst hs
        simp [hshapes,Live.standalone,ht]
      · simp [hs,h.shapes]
    · intro n
      by_cases hn : p.numId = n
      · subst hn
        simp [ht]
      · simp [AssocMap.get?_insert,hn,h.familyOf]
    · intro sid v hv
      simp only [AssocMap.get?_insert] at hv
      split_ifs at hv with hs
      · obtain rfl := eq_of_beq hs
        obtain rfl := Option.some.inj hv
        rfl
      · exact h.numbered sid v hv
    · intro cols key n
      simp only [Registry.routedAt_add,Buckets.bucket_put,beq_iff_eq]
      by_cases hn : p.numId = n
      · subst hn
        have hempty : (T.families.bucket cols key).filter (·.numId == p.numId) = [] := by
          simp [h.families,Registry.routedAt,hlive]
        rw [if_pos rfl,Live.routedAt,ht,Option.bind_some]
        split_ifs <;> simp [hempty,StandaloneShape.routed]
      · rw [if_neg hn,← h.families]
        split_ifs <;> simp [hn]

/-- An aggregate stands in a map and an index of its own. -/
lemma addAggregate (h : Refines T R) {numId : ℕ} (hlive : R.live.get? (shapeId numId) = none)
    (hpending : R.pending.get? (shapeId numId) = none) (a : AggShape) :
    Refines { T with
        aggIndex := T.aggIndex.insert (shapeId numId) a.pred
        aggregates := T.aggregates.insert (shapeId numId) a }
      (R.add (shapeId numId) (.aggregate a)) := by
  have hshapes := h.shapes (shapeId numId)
  have hfamily := h.familyOf numId
  have hagg := h.aggregates (shapeId numId)
  simp only [hlive,Option.bind_none] at hshapes hfamily hagg
  refine ⟨h.pending,h.creating_add hpending _,h.minted_add _ _,?_,h.shapeIndex,?_,h.numbered,?_,?_,?_⟩
  · intro sid
    by_cases hs : shapeId numId = sid
    · subst hs
      simp [hshapes,Live.standalone]
    · simp [hs,h.shapes]
  · intro n
    by_cases hn : numId = n
    · subst hn
      simp [hfamily]
    · simp [hn,h.familyOf]
  · intro cols key n
    rw [h.families,Registry.routedAt_add]
    by_cases hn : numId = n
    · subst hn
      simp [Registry.routedAt,hlive,Live.routedAt]
    · rw [if_neg hn]
  · intro sid
    by_cases hs : shapeId numId = sid <;> simp [AssocMap.get?_insert,hs,h.aggregates,Live.agg]
  · have hidx := h.aggIndex.insert (shapeId numId) (by simp [hagg]) a.pred
    convert hidx using 2 with sid
    by_cases hs : shapeId numId = sid <;> simp [AssocMap.get?_insert,hs]

lemma activateShape (h : Refines T R) (sid : String) (gate : SnapshotGate)
    (aggSeed : Option AggSeed) (appended : Bool) :
    Refines (T.activateShape sid gate aggSeed appended).1
      (R.activateShape T.ts sid gate aggSeed appended) := by
  rw [TableExec.activateShape,Registry.activateShape,h.pending]
  cases hp : R.pending.get? sid with
  | none => exact h
  | some p =>
    obtain ⟨rfl,hlive⟩ := h.creating sid p hp
    have habort := h.abortShape (shapeId p.numId)
    have hgone : (R.abortShape (shapeId p.numId)).pending.get? (shapeId p.numId) = none :=
      AssocMap.get?_erase_self _ _
    rw [TableExec.abortShape,h.pending] at habort
    by_cases hover : p.overflowed = true
    · simpa [hover] using habort
    · cases hk : p.kind with
      | plain => simpa [hover,hk] using habort.place hlive hgone gate
      | aggregate func col =>
        cases appended with
        | false => simpa [hover,hk] using habort
        | true => simpa [hover,hk] using habort.addAggregate hlive hgone _

lemma creating_drop (h : Refines T R) (sid s : String) (p : PendingShape)
    (hp : R.pending.get? s = some p) :
    s = shapeId p.numId ∧ (R.drop sid).live.get? s = none := by
  obtain ⟨hs,hnone⟩ := h.creating s p hp
  exact ⟨hs,by simp [hnone]⟩

lemma minted_drop (h : Refines T R) (sid s : String) (l : Live)
    (hl : (R.drop sid).live.get? s = some l) : ∃ n, s = shapeId n := by
  rw [Registry.live_drop] at hl
  split_ifs at hl
  exact h.minted s l hl

/-- A filtered shape leaves its map and its index. -/
lemma dropStandalone (h : Refines T R) {sid : String} {shape : StandaloneShape}
    (hsid : T.shapes.get? sid = some shape) :
    R.live.get? sid = some (.plain shape) ∧
    Refines { T with shapes := T.shapes.erase sid, shapeIndex := T.shapeIndex.remove sid }
      (R.drop sid) := by
  obtain ⟨l,hl,hlive⟩ := Option.bind_eq_some_iff.mp ((h.shapes sid).symm.trans hsid)
  obtain ⟨m,rfl⟩ := h.minted sid l hl
  cases l with
  | aggregate a => cases hlive
  | plain s =>
    rw [Live.standalone] at hlive
    split_ifs at hlive with ht
    obtain rfl := Option.some.inj hlive
    rw [Option.isNone_iff_eq_none] at ht
    have hfamily := h.familyOf m
    have hagg := h.aggregates (shapeId m)
    simp only [hl,Option.bind_some,ht,Option.map_none,Live.agg] at hfamily hagg
    refine ⟨hl,h.pending,h.creating_drop _,h.minted_drop _,?_,?_,?_,h.numbered,?_,?_,h.aggIndex⟩
    · intro sid
      by_cases hs : shapeId m = sid <;> simp [AssocMap.get?_erase,hs,h.shapes]
    · convert h.shapeIndex.remove (shapeId m) using 2 with sid
      by_cases hs : shapeId m = sid <;> simp [AssocMap.get?_erase,hs]
    · intro n
      by_cases hn : m = n
      · subst hn
        simp [hfamily]
      · simp [hn,h.familyOf]
    · intro cols key n
      rw [h.families,Registry.routedAt_drop]
      by_cases hn : m = n
      · subst hn
        simp [Registry.routedAt,hl,Live.routedAt,ht]
      · rw [if_neg hn]
    · intro sid
      by_cases hs : shapeId m = sid
      · subst hs
        simp [hagg]
      · simp [hs,h.aggregates]

/-- A routed shape is live, and its family and key are those of its predicate. -/
lemma live_of_familyOf (h : Refines T R) {sid : String} {cols : List ℕ} {n : ℕ} {key : Row}
    (hsid : T.familyOf.get? sid = some (cols,n,key)) :
    sid = shapeId n ∧ ∃ s, R.live.get? sid = some (.plain s) ∧ s.template = some (cols,key) := by
  obtain rfl := h.numbered sid _ hsid
  obtain ⟨l,hl,hlive⟩ := Option.bind_eq_some_iff.mp ((h.familyOf n).symm.trans hsid)
  cases l with
  | aggregate a => cases hlive
  | plain s =>
    obtain ⟨⟨cols',key'⟩,ht,heq⟩ := Option.map_eq_some_iff.mp hlive
    obtain ⟨rfl,-,rfl⟩ : cols' = cols ∧ n = n ∧ key' = key := by simpa using heq
    exact ⟨rfl,s,hl,ht⟩

/-- A routed shape leaves its family; `f` is how it is taken out of its bucket. -/
lemma dropRouted (h : Refines T R) {sid : String} {cols : List ℕ} {n : ℕ} {key : Row}
    (hsid : T.familyOf.get? sid = some (cols,n,key)) {f : List RoutedShape → List RoutedShape}
    (hself : ∀ l, (l.filter (·.numId == n)).length ≤ 1 → (f l).filter (·.numId == n) = [])
    (hother : ∀ l m, n ≠ m → (f l).filter (·.numId == m) = l.filter (·.numId == m))
    (hf : f [] = []) :
    Refines { T with
        familyOf := T.familyOf.erase sid
        families := T.families.edit cols key f } (R.drop sid) := by
  obtain ⟨rfl,s,hl,ht⟩ := h.live_of_familyOf hsid
  have hshapes := h.shapes (shapeId n)
  have hagg := h.aggregates (shapeId n)
  simp only [hl,Option.bind_some,Live.standalone,ht,Option.isNone_some,Bool.false_eq_true,if_false,
    Live.agg] at hshapes hagg
  refine ⟨h.pending,h.creating_drop _,h.minted_drop _,?_,h.shapeIndex,?_,?_,?_,?_,h.aggIndex⟩
  · intro sid
    by_cases hs : shapeId n = sid
    · subst hs
      simp [hshapes]
    · simp [hs,h.shapes]
  · intro m
    by_cases hm : n = m <;> simp [AssocMap.get?_erase,hm,h.familyOf]
  · intro sid v hv
    rw [AssocMap.get?_erase] at hv
    split_ifs at hv
    exact h.numbered sid v hv
  · intro cols' key' m
    rw [Registry.routedAt_drop,Buckets.bucket_edit _ _ _ _ _ hf]
    by_cases hm : n = m
    · subst hm
      rw [if_pos rfl,Option.toList_none]
      have hfam := h.families cols' key' n
      split_ifs with hb
      · refine hself _ ?_
        rw [hfam]
        cases R.routedAt cols' key' n <;> simp
      · rw [beq_iff_eq] at hb
        simp [hfam,Registry.routedAt,hl,Live.routedAt,ht,hb]
    · rw [if_neg hm,← h.families]
      split_ifs
      · exact hother _ m hm
      · rfl
  · intro sid
    by_cases hs : shapeId n = sid
    · subst hs
      simp [hagg]
    · simp [hs,h.aggregates]

/-- A plain shape is either filtered or routed. -/
lemma not_plain (h : Refines T R) {sid : String} (hs : T.shapes.get? sid = none)
    (hf : T.familyOf.get? sid = none) (s : StandaloneShape) : R.live.get? sid ≠ some (.plain s) := by
  intro hl
  obtain ⟨n,rfl⟩ := h.minted sid _ hl
  have hshapes := h.shapes (shapeId n)
  have hfamily := h.familyOf n
  rw [hl,hs,Option.bind_some,Live.standalone] at hshapes
  rw [hl,hf,Option.bind_some] at hfamily
  cases ht : s.template <;> simp [ht] at hshapes hfamily

/-- The gate that parking hands back is that of the live shape. -/
lemma deactivateShape (h : Refines T R) (sid : String) :
    Refines (T.deactivateShape sid).1 (R.deactivateShape sid).1 ∧
    (T.deactivateShape sid).2 = (R.deactivateShape sid).2 := by
  rw [TableExec.deactivateShape,Registry.deactivateShape]
  cases hs : T.shapes.get? sid with
  | some shape =>
    obtain ⟨hl,hdrop⟩ := h.dropStandalone hs
    simpa [hl] using hdrop
  | none =>
    cases hf : T.familyOf.get? sid with
    | some v =>
      obtain ⟨cols,n,key⟩ := v
      obtain ⟨rfl,s,hl,ht⟩ := h.live_of_familyOf hf
      have hfind : (T.families.bucket cols key).find? (·.numId == n) = some (s.routed n) := by
        rw [← List.head?_filter,h.families]
        simp [Registry.routedAt,hl,Live.routedAt,ht]
      have hdrop := h.dropRouted hf (f := (·.eraseP (·.numId == n)))
        (fun l hlen => by
          rw [filter_eraseP,← List.length_eq_zero_iff,List.length_tail]
          omega)
        (fun l m hm => filter_eraseP_of_ne l (by simpa using fun _ hx => hx ▸ hm)) rfl
      refine ⟨?_,?_⟩
      · simpa [hl] using hdrop
      · simp [hl,hfind,StandaloneShape.routed]
    | none =>
      cases hl : R.live.get? sid with
      | none => exact ⟨h,rfl⟩
      | some l =>
        cases l with
        | plain s => exact absurd hl (h.not_plain hs hf s)
        | aggregate a => exact ⟨h,rfl⟩

lemma dropAggregate (h : Refines T R) {sid : String} {a : AggShape}
    (hsid : T.aggregates.get? sid = some a) :
    Refines { T with aggregates := T.aggregates.erase sid, aggIndex := T.aggIndex.remove sid }
      (R.drop sid) := by
  obtain ⟨l,hl,hlive⟩ := Option.bind_eq_some_iff.mp ((h.aggregates sid).symm.trans hsid)
  obtain ⟨m,rfl⟩ := h.minted sid l hl
  cases l with
  | plain s => cases hlive
  | aggregate a' =>
    have hshapes := h.shapes (shapeId m)
    have hfamily := h.familyOf m
    simp only [hl,Option.bind_some,Live.standalone] at hshapes hfamily
    refine ⟨h.pending,h.creating_drop _,h.minted_drop _,?_,h.shapeIndex,?_,h.numbered,?_,?_,?_⟩
    · intro sid
      by_cases hs : shapeId m = sid
      · subst hs
        simp [hshapes]
      · simp [hs,h.shapes]
    · intro n
      by_cases hn : m = n
      · subst hn
        simp [hfamily]
      · simp [hn,h.familyOf]
    · intro cols key n
      rw [h.families,Registry.routedAt_drop]
      by_cases hn : m = n
      · subst hn
        simp [Registry.routedAt,hl,Live.routedAt]
      · rw [if_neg hn]
    · intro sid
      by_cases hs : shapeId m = sid <;> simp [AssocMap.get?_erase,hs,h.aggregates]
    · convert h.aggIndex.remove (shapeId m) using 2 with sid
      by_cases hs : shapeId m = sid <;> simp [AssocMap.get?_erase,hs]

/-- Dropping a shape that is not live changes nothing. -/
lemma dropMissing (h : Refines T R) {sid : String} (hsid : R.live.get? sid = none) :
    Refines T (R.drop sid) := by
  have hsame : ∀ s, (R.drop sid).live.get? s = R.live.get? s := by
    intro s
    by_cases hs : sid = s
    · subst hs
      simp [hsid]
    · simp [hs]
  refine ⟨h.pending,h.creating_drop _,h.minted_drop _,?_,h.shapeIndex,?_,h.numbered,?_,?_,h.aggIndex⟩
  · simpa only [hsame] using h.shapes
  · simpa only [hsame] using h.familyOf
  · simpa only [Registry.routedAt,hsame] using h.families
  · simpa only [hsame] using h.aggregates

lemma removeShape (h : Refines T R) (sid : String) :
    Refines (T.removeShape sid) (R.removeShape sid) := by
  have habort := h.abortShape sid
  rw [TableExec.removeShape,Registry.removeShape]
  cases ha : T.aggregates.get? sid with
  | some a => simpa [ha,TableExec.abortShape] using habort.dropAggregate ha
  | none =>
    cases hs : T.shapes.get? sid with
    | some shape => simpa [ha,hs,TableExec.abortShape] using (habort.dropStandalone hs).2
    | none =>
      cases hf : T.familyOf.get? sid with
      | some v =>
        obtain ⟨cols,n,key⟩ := v
        have hdrop := habort.dropRouted hf (f := (·.filter (·.numId ≠ n)))
          (fun l _ => by simp [List.filter_filter])
          (fun l m hm => by
            rw [List.filter_filter]
            refine List.filter_congr fun rs _ => ?_
            by_cases hrs : rs.numId = m <;> simp [hrs,Ne.symm hm]) rfl
        simpa [ha,hs,hf,TableExec.abortShape] using hdrop
      | none =>
        have hlive : R.live.get? sid = none := by
          have hagg := h.aggregates sid
          cases hl : R.live.get? sid with
          | none => rfl
          | some l =>
            cases l with
            | plain s => exact absurd hl (h.not_plain hs hf s)
            | aggregate a => simp [hl,ha,Live.agg] at hagg
        simpa [ha,hs,hf,TableExec.abortShape] using habort.dropMissing hlive

lemma receive (h : Refines T R) (cost : Envelope → ℕ) (cap : ℕ) (env : Envelope)
    (libraryMode : Bool) :
    Refines (T.receive cost cap env libraryMode).1
      (R.receive cost cap (T.receive cost cap env libraryMode).2) := by
  have hbuffer : ∀ (T' : TableExec) (env : Envelope), Refines T' R →
      Refines { T' with pending := T'.pending.mapValues fun _ p => bufferPending cost cap p env }
        (R.receive cost cap env) := by
    intro T' env h'
    refine { h' with
      pending := by simp only [Registry.receive,h'.pending]
      creating := fun sid p hp => ?_ }
    simp only [Registry.receive,AssocMap.get?_mapValues,Option.map_eq_some_iff] at hp
    obtain ⟨q,hq,rfl⟩ := hp
    obtain ⟨hsid,hnone⟩ := h'.creating sid q hq
    refine ⟨hsid.trans (congrArg shapeId ?_),hnone⟩
    rw [bufferPending]
    split_ifs <;> rfl
  rw [TableExec.receive]
  cases libraryMode with
  | false => exact hbuffer T env h
  | true =>
    rw [if_pos rfl,TableExec.stampBeforeImage]
    -- the executor's own view is not part of the routing
    split_ifs
    · exact hbuffer _ _ { h with }
    · cases env.value <;> exact hbuffer _ _ { h with }
    · exact hbuffer _ _ { h with }
    · cases env.value <;> exact hbuffer _ _ { h with }

end Refines
end ElectricCircuits
