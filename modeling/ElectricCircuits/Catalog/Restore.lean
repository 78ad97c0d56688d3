import ElectricCircuits.Lifecycle.Lives

/-! The tables and the lives that a boot makes of the catalog's fold. -/
namespace ElectricCircuits
namespace CatalogFold
variable {D : Type*}

/-- The live set is restored with the ages of its leases. -/
def restoreSubs (st : EngineState D) (id : String) (subs : List (String × ℕ)) : EngineState D :=
  subs.foldl (fun st l => (st.subscribe id l.1 l.2).1) st

def restoreState (st : EngineState D) (id : String) (r : Restored D) : EngineState D :=
  match r.sig with
  | none => { st with shapes := st.shapes.insert id r.record }
  | some sig => restoreSubs { st with
      shapes := st.shapes.insert id r.record
      feedBySig := st.feedBySig.insert sig id
      feedShares := st.feedShares.insert id ⟨sig,.empty⟩ } id r.subs.entries

/-- A dormant shape is restored as dormant, any other as active. -/
def restoredLife (r : Restored D) : ShapeLife :=
  match r.dormant with
  | some parked => .dormant parked
  | none => .active

/-- A boot leaves out the shapes that it retires, and every shape with a subquery. -/
def keeps (retires : Restored D → Bool) (r : Restored D) : Bool := !retires r && !r.record.isSubquery

def restoreShape (s : EngineState D × AssocMap String ShapeLife) (e : String × Restored D) :
    EngineState D × AssocMap String ShapeLife :=
  (restoreState s.1 e.1 e.2,s.2.insert e.1 (restoredLife e.2))

/-- The shapes whose stream is gone or whose table has another schema by now are retired. -/
def restore (f : CatalogFold D) (retires : Restored D → Bool) :
    EngineState D × AssocMap String ShapeLife :=
  (f.recs.entries.filter fun e => keeps retires e.2).foldl restoreShape
    ({ EngineState.init with nextShapeId := max 1 (f.maxShapeId.elim 0 (·+1)) },.empty)

section
variable {st : EngineState D} {id id' : String} {subs : List (String × ℕ)}

lemma restoreSubs_cons (l : String × ℕ) :
    restoreSubs st id (l::subs) = restoreSubs (st.subscribe id l.1 l.2).1 id subs := rfl

lemma shapes_restoreSubs : (restoreSubs st id subs).shapes = st.shapes := by
  induction subs generalizing st with
  | nil => rfl
  | cons l subs ih => rw [restoreSubs_cons,ih,EngineState.shapes_subscribe]

lemma sigOf_restoreSubs : (restoreSubs st id subs).sigOf id' = st.sigOf id' := by
  induction subs generalizing st with
  | nil => rfl
  | cons l subs ih => rw [restoreSubs_cons,ih,EngineState.sigOf_subscribe]

lemma lease_restoreSubs_ne (hne : id ≠ id') (x : String) :
    (restoreSubs st id subs).lease id' x = st.lease id' x := by
  induction subs generalizing st with
  | nil => rfl
  | cons l subs ih =>
    rw [restoreSubs_cons,ih]
    by_cases hshared : st.sigOf id = none
    · rw [EngineState.subscribe_unshared hshared]
    · rw [EngineState.lease_subscribe hshared,if_neg fun hs => hne hs.1]

lemma lease_restoreSubs (hshared : st.sigOf id ≠ none) {x : String}
    (hnodup : subs.Pairwise fun p q => (p.1 == q.1) = false)
    (hnone : ∀ l ∈ subs, st.lease id l.1 = none) :
    (restoreSubs st id subs).lease id x =
      ((subs.find? (·.1 == x)).map (·.2)).or (st.lease id x) := by
  induction subs generalizing st with
  | nil => rfl
  | cons l subs ih =>
    obtain ⟨hl,hnodup⟩ := List.pairwise_cons.mp hnodup
    have hafter : ∀ y, (st.subscribe id l.1 l.2).1.lease id y =
        if l.1 = y then some l.2 else st.lease id y := fun y => by
      rw [EngineState.lease_subscribe hshared,hnone l (.head _)]
      simp [renewedLease]
    rw [restoreSubs_cons,ih (by rwa [EngineState.sigOf_subscribe]) hnodup fun l' hl' => ?_,hafter]
    · by_cases hx : l.1 = x
      · have hmissing : subs.find? (·.1 == x) = none := by
          rw [List.find?_eq_none]
          intro p hp hpx
          have hne : l.1 ≠ p.1 := by simpa using hl p hp
          exact hne (hx.trans (beq_iff_eq.mp hpx).symm)
        simp [hx,hmissing]
      · simp [hx]
    · have hne : l.1 ≠ l'.1 := by simpa using hl l' hl'
      rw [hafter,if_neg hne]
      exact hnone l' (.tail _ hl')

lemma shapes_restoreState (r : Restored D) : (restoreState st id r).shapes.get? id' =
    if id = id' then some r.record else st.shapes.get? id' := by
  unfold restoreState
  cases r.sig with
  | none => exact AssocMap.get?_insert_eq _ _ _ _
  | some sig =>
    exact (congrArg (fun m : AssocMap String (ShapeRecord D) => m.get? id') shapes_restoreSubs).trans
      (AssocMap.get?_insert_eq _ _ _ _)

lemma sigOf_restoreState {r : Restored D} (hnew : st.sigOf id = none) :
    (restoreState st id r).sigOf id' = if id = id' then r.sig else st.sigOf id' := by
  unfold restoreState
  cases hsig : r.sig with
  | none =>
    split_ifs with hid
    · exact hid ▸ hnew
    · rfl
  | some sig =>
    rw [sigOf_restoreSubs]
    simp only [EngineState.sigOf,AssocMap.get?_insert_eq]
    split_ifs <;> rfl

lemma lease_restoreState {r : Restored D} (hnew : st.sigOf id = none) (x : String) :
    (restoreState st id r).lease id' x =
      if id = id' then r.sig.bind fun _ => r.subs.get? x else st.lease id' x := by
  have hnone : st.feedShares.get? id = none := Option.map_eq_none_iff.mp hnew
  unfold restoreState
  cases hsig : r.sig with
  | none =>
    split_ifs with hid
    · subst hid
      simp [EngineState.lease,hnone]
    · rfl
  | some sig =>
    split_ifs with hid
    · subst hid
      have hempty : ∀ y, EngineState.lease { st with
          shapes := st.shapes.insert id r.record
          feedBySig := st.feedBySig.insert sig id
          feedShares := st.feedShares.insert id ⟨sig,.empty⟩ } id y = none := fun y => by
        simp [EngineState.lease]
      rw [lease_restoreSubs (by simp [EngineState.sigOf]) r.subs.nodup fun l _ => hempty l.1,hempty,
        Option.or_none]
      rfl
    · rw [lease_restoreSubs_ne hid]
      simp [EngineState.lease,AssocMap.get?_insert_eq,hid]

end

/-- What a boot has of a shape. -/
structure HasShape (s : EngineState D × AssocMap String ShapeLife) (id : String) (r : Restored D) :
    Prop where
  shape : s.1.shapes.get? id = some r.record
  sig : s.1.sigOf id = r.sig
  lease : ∀ x, s.1.lease id x = r.sig.bind fun _ => r.subs.get? x
  life : s.2.get? id = some (restoredLife r)

/-- A boot has nothing of a shape. -/
structure LacksShape (s : EngineState D × AssocMap String ShapeLife) (id : String) : Prop where
  shape : s.1.shapes.get? id = none
  sig : s.1.sigOf id = none

lemma restore_fold {l : List (String × Restored D)} {s : EngineState D × AssocMap String ShapeLife}
    (hnodup : (l.map (·.1)).Nodup) (hnew : ∀ e ∈ l, LacksShape s e.1) (id : String) :
    (∀ r, (id,r) ∈ l → HasShape (l.foldl restoreShape s) id r) ∧
      (id ∉ l.map (·.1) → (∀ r, HasShape s id r → HasShape (l.foldl restoreShape s) id r) ∧
        (LacksShape s id → LacksShape (l.foldl restoreShape s) id)) := by
  induction l generalizing s with
  | nil => exact ⟨by simp,fun _ => ⟨fun _ h => h,fun h => h⟩⟩
  | cons e l ih =>
    obtain ⟨hne,hnodup⟩ := List.nodup_cons.mp hnodup
    have hsig := (hnew e (.head _)).sig
    have hother : ∀ id', e.1 ≠ id' → ∀ r, HasShape s id' r →
        HasShape (restoreShape s e) id' r :=
      fun id' hid r h =>
        ⟨(shapes_restoreState e.2).trans ((if_neg hid).trans h.shape),
          (sigOf_restoreState hsig).trans ((if_neg hid).trans h.sig),
          fun x => (lease_restoreState hsig x).trans ((if_neg hid).trans (h.lease x)),
          (AssocMap.get?_insert_eq _ _ _ _).trans ((if_neg hid).trans h.life)⟩
    have hlacks : ∀ id', e.1 ≠ id' → LacksShape s id' →
        LacksShape (restoreShape s e) id' := fun id' hid h =>
      ⟨(shapes_restoreState e.2).trans ((if_neg hid).trans h.shape),
        (sigOf_restoreState hsig).trans ((if_neg hid).trans h.sig)⟩
    have hrest := ih hnodup fun e' he' => hlacks e'.1
      (fun heq => hne (List.mem_map.mpr ⟨e',he',heq.symm⟩)) (hnew e' (.tail _ he'))
    refine ⟨fun r hr => ?_,fun hid => ?_⟩
    · rcases List.mem_cons.mp hr with rfl | hr
      · refine (hrest.2 hne).1 r ⟨?_,?_,fun x => ?_,?_⟩
        · exact (shapes_restoreState r).trans (if_pos rfl)
        · exact (sigOf_restoreState hsig).trans (if_pos rfl)
        · exact (lease_restoreState hsig x).trans (if_pos rfl)
        · exact (AssocMap.get?_insert_eq _ _ _ _).trans (if_pos rfl)
      · exact hrest.1 r hr
    · rw [List.map_cons,List.mem_cons,not_or] at hid
      obtain ⟨hkeep,hlack⟩ := hrest.2 hid.2
      exact ⟨fun r h => hkeep r (hother id (Ne.symm hid.1) r h),
        fun h => hlack (hlacks id (Ne.symm hid.1) h)⟩

/-- A boot restores the shapes that the fold has and that it keeps, each as the fold has it. -/
theorem restore_spec (f : CatalogFold D) (retires : Restored D → Bool) (id : String) :
    (∀ r, f.recs.get? id = some r → keeps retires r = true → HasShape (f.restore retires) id r) ∧
    ((∀ r, f.recs.get? id = some r → keeps retires r = false) →
      (f.restore retires).1.shapes.get? id = none) := by
  have hnodup : ((f.recs.entries.filter fun e => keeps retires e.2).map (·.1)).Nodup :=
    f.recs.nodup_keys.sublist (List.filter_sublist.map _)
  have hfold := restore_fold hnodup
    (s := ({ EngineState.init with nextShapeId := max 1 (f.maxShapeId.elim 0 (·+1)) },.empty))
    (fun e _ => ⟨rfl,rfl⟩) id
  refine ⟨fun r hr hkeep => hfold.1 r ?_,fun hnone => ((hfold.2 fun hmem => ?_).2 ⟨rfl,rfl⟩).shape⟩
  · exact List.mem_filter.mpr ⟨(AssocMap.mem_entries _ _ _).mpr hr,hkeep⟩
  · obtain ⟨e,he,rfl⟩ := List.mem_map.mp hmem
    obtain ⟨hmem,hkeep⟩ := List.mem_filter.mp he
    rw [hnone e.2 ((AssocMap.mem_entries _ _ _).mp hmem)] at hkeep
    cases hkeep

end CatalogFold
end ElectricCircuits
