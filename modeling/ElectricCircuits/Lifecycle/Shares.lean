import ElectricCircuits.NaiveScan
import Mathlib.Data.List.MinMax
import Mathlib.Data.Prod.Lex
import Mathlib.Data.String.Basic
import Mathlib.Order.WithBot

/-! The share tables of the engine state: which shape a signature and a subscription id lead to, and the
subscriptions that each shared shape holds. -/
namespace ElectricCircuits

/-- A registered shape. Its table, predicate, columns and fingerprint are its definition. -/
structure ShapeRecord (D : Type*) where
  id : String
  streamPath : String
  changesOnly : Bool
  isSubquery : Bool
  aggregate : Bool
  backfill : Option (ℕ × ℕ)
  definition : D
  deriving DecidableEq

/-- May the shape go dormant? -/
def ShapeRecord.parkable {D : Type*} (rec : ShapeRecord D) : Bool :=
  !rec.isSubquery && !rec.aggregate && !rec.changesOnly

/-- What identical shapes share, with the live subscriptions and the time of each one's last renewal. -/
structure FeedShare where
  sig : String
  subs : AssocMap String ℕ

/-- A renewal only moves a lease forward. -/
def renewedLease (lease : Option ℕ) (now : ℕ) : ℕ := lease.elim now (max · now)

namespace FeedShare

def refcount (share : FeedShare) : ℕ := share.subs.entries.length

/-- The counter of an id that the engine minted. -/
def mintedSeq (id : String) : Option ℕ :=
  if '-' ∈ id.toList then
    parseUnsigned 10 (2^64) (id.toList.reverse.takeWhile (· ≠ '-')).reverse
  else none

/-- The oldest lease comes first, then the lowest counter. -/
def releaseKey (e : String × ℕ) : ℕ ×ₗ WithBot ℕ ×ₗ String := toLex (e.2,toLex (mintedSeq e.1,e.1))

/-- The first of the subscriptions that the engine minted, or of the others. -/
def pick (share : FeedShare) (minted : Bool) : Option String :=
  ((share.subs.entries.filter fun e => (e.1.toList.head? == some '~') == minted).argmin
    releaseKey).map (·.1)

end FeedShare

/-- The part of the engine state that says which shapes there are and who holds them. -/
structure EngineState (D : Type*) where
  shapes : AssocMap String (ShapeRecord D)
  nextShapeId : ℕ
  feedBySig : AssocMap String String
  feedShares : AssocMap String FeedShare
  subsById : AssocMap String String

namespace EngineState
variable {D : Type*}

def init : EngineState D := ⟨.empty,1,.empty,.empty,.empty⟩

/-- A new claim, or the renewal of one that the shape holds. The answer is whether it is new. -/
def subscribe (st : EngineState D) (shape sub : String) (now : ℕ) : EngineState D × Bool :=
  match st.feedShares.get? shape with
  | none => (st,false)
  | some share =>
    ({ st with
      feedShares := st.feedShares.insert shape
        { share with subs := share.subs.insert sub (renewedLease (share.subs.get? sub) now) }
      subsById := st.subsById.insert sub shape },(share.subs.get? sub).isNone)

/-- Release one subscription. The answer is whether the shape held it. -/
def unsubscribe (st : EngineState D) (shape sub : String) : EngineState D × Bool :=
  match st.feedShares.get? shape with
  | none => (st,false)
  | some share =>
    if (share.subs.get? sub).isSome then
      ({ st with
        feedShares := st.feedShares.insert shape { share with subs := share.subs.erase sub }
        subsById := if st.subsById.get? sub = some shape then st.subsById.erase sub
          else st.subsById },true)
    else (st,false)

def unsubscribeAll (st : EngineState D) (expired : List (String × String)) : EngineState D :=
  expired.foldl (fun st p => (st.unsubscribe p.1 p.2).1) st

/-- The subscription that an anonymous release takes: one that the engine minted before any other. -/
def anonymousVictim (st : EngineState D) (shape : String) : Option String :=
  (st.feedShares.get? shape).bind fun share => (share.pick true).or (share.pick false)

/-- The ids that a shape holds no longer lead to it. -/
def forgetSubscriptions (st : EngineState D) (shape : String) : EngineState D :=
  match st.feedShares.get? shape with
  | none => st
  | some share =>
    { st with subsById := st.subsById.filter fun sub owner =>
        !((share.subs.get? sub).isSome && owner == shape) }

/-- The subscriptions not renewed within the window, which is in milliseconds. -/
def lapsedSubscriptions (st : EngineState D) (window now : ℕ) : List (String × String) :=
  if window = 0 then []
  else st.feedShares.entries.flatMap fun e =>
    (e.2.subs.entries.filter fun l => max (window/1000) 1 < now-l.2).map fun l => (e.1,l.1)

/-- Nobody holds the id, or the shape itself does. -/
def subscriptionFree (st : EngineState D) (sub shape : String) : Bool :=
  match st.subsById.get? sub with
  | some owner => owner == shape
  | none => true

def refcount (st : EngineState D) (shape : String) : ℕ :=
  (st.feedShares.get? shape).elim 0 FeedShare.refcount

/-- A create registers the first shape of a signature, with its own subscription. -/
def register (st : EngineState D) (rec : ShapeRecord D) (sig sub : String) (now : ℕ) :
    EngineState D :=
  (subscribe { st with
    nextShapeId := st.nextShapeId+1
    shapes := st.shapes.insert rec.id rec
    feedBySig := st.feedBySig.insert sig rec.id
    feedShares := st.feedShares.insert rec.id ⟨sig,.empty⟩ } rec.id sub now).1

/-- A purge and an eviction take a shape out of every table. -/
def retire (st : EngineState D) (id : String) : EngineState D :=
  let st' := st.forgetSubscriptions id
  { st' with
    shapes := st'.shapes.erase id
    feedBySig := match st'.feedShares.get? id with
      | some share => st'.feedBySig.erase share.sig
      | none => st'.feedBySig
    feedShares := st'.feedShares.erase id }

/-- The rollback of a create leaves a signature alone that leads to another shape by now. -/
def rollbackCreate (st : EngineState D) (id : String) : EngineState D :=
  let st' := { st with shapes := st.shapes.erase id }.forgetSubscriptions id
  { st' with
    feedBySig := match st'.feedShares.get? id with
      | some share =>
        if st'.feedBySig.get? share.sig = some id then st'.feedBySig.erase share.sig
        else st'.feedBySig
      | none => st'.feedBySig
    feedShares := st'.feedShares.erase id }

/-- The time of a subscription's last renewal, if the shape holds it. -/
def lease (st : EngineState D) (shape sub : String) : Option ℕ :=
  (st.feedShares.get? shape).bind (·.subs.get? sub)

def sigOf (st : EngineState D) (shape : String) : Option String :=
  (st.feedShares.get? shape).map (·.sig)

section
variable {st : EngineState D} {shape sub : String} {now : ℕ}

lemma exists_share {sig : String} (h : st.sigOf shape = some sig) :
    ∃ share, st.feedShares.get? shape = some share ∧ share.sig = sig :=
  Option.map_eq_some_iff.mp h

@[simp] lemma shapes_subscribe : (st.subscribe shape sub now).1.shapes = st.shapes := by
  unfold subscribe
  split <;> rfl

@[simp] lemma nextShapeId_subscribe :
    (st.subscribe shape sub now).1.nextShapeId = st.nextShapeId := by
  unfold subscribe
  split <;> rfl

@[simp] lemma feedBySig_subscribe : (st.subscribe shape sub now).1.feedBySig = st.feedBySig := by
  unfold subscribe
  split <;> rfl

lemma subscribe_unshared (h : st.sigOf shape = none) : st.subscribe shape sub now = (st,false) := by
  rw [subscribe,Option.map_eq_none_iff.mp h]

@[simp] lemma sigOf_subscribe (id : String) :
    (st.subscribe shape sub now).1.sigOf id = st.sigOf id := by
  unfold subscribe
  split
  · rfl
  · next share hshare =>
    simp only [sigOf,AssocMap.get?_insert,beq_iff_eq]
    split_ifs with hid
    · rw [← hid,hshare]
      rfl
    · rfl

lemma lease_subscribe (h : st.sigOf shape ≠ none) (id x : String) :
    (st.subscribe shape sub now).1.lease id x =
      if shape = id ∧ sub = x then some (renewedLease (st.lease shape sub) now) else st.lease id x := by
  obtain ⟨sig,hsig⟩ := Option.ne_none_iff_exists'.mp h
  obtain ⟨share,hshare,-⟩ := exists_share hsig
  simp only [subscribe,hshare,lease,AssocMap.get?_insert,beq_iff_eq,Option.bind_some]
  by_cases hid : shape = id
  · subst hid
    simp [hshare,AssocMap.get?_insert]
  · simp [hid]

lemma subsById_subscribe (h : st.sigOf shape ≠ none) (x : String) :
    (st.subscribe shape sub now).1.subsById.get? x =
      if sub = x then some shape else st.subsById.get? x := by
  obtain ⟨sig,hsig⟩ := Option.ne_none_iff_exists'.mp h
  obtain ⟨share,hshare,-⟩ := exists_share hsig
  simp only [subscribe,hshare,AssocMap.get?_insert,beq_iff_eq]

@[simp] lemma shapes_unsubscribe : (st.unsubscribe shape sub).1.shapes = st.shapes := by
  unfold unsubscribe
  split
  · rfl
  · split <;> rfl

@[simp] lemma nextShapeId_unsubscribe :
    (st.unsubscribe shape sub).1.nextShapeId = st.nextShapeId := by
  unfold unsubscribe
  split
  · rfl
  · split <;> rfl

@[simp] lemma feedBySig_unsubscribe : (st.unsubscribe shape sub).1.feedBySig = st.feedBySig := by
  unfold unsubscribe
  split
  · rfl
  · split <;> rfl

lemma unsubscribe_held : (st.unsubscribe shape sub).2 = (st.lease shape sub).isSome := by
  unfold unsubscribe lease
  cases hshare : st.feedShares.get? shape with
  | none => rfl
  | some share => cases hsub : share.subs.get? sub <;> simp [hsub]

lemma unsubscribe_of_none (h : st.lease shape sub = none) : (st.unsubscribe shape sub).1 = st := by
  unfold unsubscribe
  cases hshare : st.feedShares.get? shape with
  | none => rfl
  | some share =>
    have hsub : share.subs.get? sub = none := by simpa [lease,hshare] using h
    simp [hsub]

@[simp] lemma sigOf_unsubscribe (id : String) :
    (st.unsubscribe shape sub).1.sigOf id = st.sigOf id := by
  unfold unsubscribe
  split
  · rfl
  · next share hshare =>
    split
    · simp only [sigOf,AssocMap.get?_insert,beq_iff_eq]
      split_ifs with hid
      · rw [← hid,hshare]
        rfl
      · rfl
    · rfl

lemma lease_unsubscribe (id x : String) :
    (st.unsubscribe shape sub).1.lease id x =
      if shape = id ∧ sub = x then none else st.lease id x := by
  cases hshare : st.feedShares.get? shape with
  | none =>
    have hst : (st.unsubscribe shape sub).1 = st := by rw [unsubscribe,hshare]
    rw [hst]
    split_ifs with h
    · rw [lease,← h.1,hshare]
      rfl
    · rfl
  | some share =>
    by_cases hsub : (share.subs.get? sub).isSome
    · simp only [unsubscribe,hshare,hsub,if_true,lease,AssocMap.get?_insert,beq_iff_eq]
      by_cases hid : shape = id
      · subst hid
        simp [hshare,AssocMap.get?_erase]
      · simp [hid]
    · have hnone : share.subs.get? sub = none := by simpa using hsub
      rw [unsubscribe_of_none (by simp [lease,hshare,hnone])]
      split_ifs with h
      · rw [lease,← h.1,← h.2,hshare,Option.bind_some,hnone]
      · rfl

/-- The id leads nowhere any more, if it led here. -/
lemma subsById_unsubscribe (x : String) :
    (st.unsubscribe shape sub).1.subsById.get? x =
      if sub = x ∧ (st.lease shape sub).isSome ∧ st.subsById.get? sub = some shape then none
      else st.subsById.get? x := by
  cases hlease : st.lease shape sub with
  | none => rw [unsubscribe_of_none hlease]; simp
  | some l =>
    obtain ⟨share,hshare,hsub⟩ := Option.bind_eq_some_iff.mp hlease
    simp only [unsubscribe,hshare,hsub,Option.isSome_some,if_true,true_and]
    by_cases howner : st.subsById.get? sub = some shape
    · simp [howner,AssocMap.get?_erase]
    · simp [howner]

lemma forgetSubscriptions_shares :
    (st.forgetSubscriptions shape).feedShares = st.feedShares := by
  unfold forgetSubscriptions
  split <;> rfl

lemma forgetSubscriptions_sigs :
    (st.forgetSubscriptions shape).feedBySig = st.feedBySig := by
  unfold forgetSubscriptions
  split <;> rfl

lemma forgetSubscriptions_shapes :
    (st.forgetSubscriptions shape).shapes = st.shapes := by
  unfold forgetSubscriptions
  split <;> rfl

lemma forgetSubscriptions_next :
    (st.forgetSubscriptions shape).nextShapeId = st.nextShapeId := by
  unfold forgetSubscriptions
  split <;> rfl

lemma subsById_forget (x : String) :
    (st.forgetSubscriptions shape).subsById.get? x =
      if (st.lease shape x).isSome ∧ st.subsById.get? x = some shape then none
      else st.subsById.get? x := by
  unfold forgetSubscriptions lease
  cases hshare : st.feedShares.get? shape with
  | none => simp
  | some share =>
    simp only [AssocMap.get?_filter,Option.bind_some]
    cases howner : st.subsById.get? x with
    | none => simp
    | some owner =>
      by_cases hsub : (share.subs.get? x).isSome <;> by_cases ho : owner = shape <;>
        simp [Option.filter,hsub,ho]

/-- The index of signatures is the inverse of the shares, and every share is a live shape's. -/
structure Signed (st : EngineState D) : Prop where
  signed : ∀ id sig, st.feedBySig.get? sig = some id ↔ st.sigOf id = some sig
  live : ∀ id, st.sigOf id ≠ none → st.shapes.get? id ≠ none

/-- The share tables are one relation: the index of ids, too, is the inverse of the subscriptions that
the shapes hold. -/
structure Related (st : EngineState D) : Prop extends Signed st where
  owner : ∀ id x, st.subsById.get? x = some id ↔ st.lease id x ≠ none

lemma sigOf_of_lease {id x : String} (h : st.lease id x ≠ none) : st.sigOf id ≠ none := by
  unfold lease at h
  unfold sigOf
  cases hshare : st.feedShares.get? id with
  | none => simp [hshare] at h
  | some share => simp

/-- A subscription id names at most one shape. -/
lemma Related.one_shape (h : st.Related) {id id' x : String} (hid : st.lease id x ≠ none)
    (hid' : st.lease id' x ≠ none) : id = id' :=
  Option.some.inj (((h.owner id x).mpr hid).symm.trans ((h.owner id' x).mpr hid'))

lemma Signed.init : (init : EngineState D).Signed :=
  ⟨fun _ _ => by simp [EngineState.init,sigOf],fun _ h => absurd rfl h⟩

theorem Related.init : (init : EngineState D).Related :=
  ⟨.init,fun _ _ => by simp [EngineState.init,lease]⟩

lemma subscriptionFree_iff :
    st.subscriptionFree sub shape = true ↔ ∀ owner, st.subsById.get? sub = some owner → owner = shape := by
  unfold subscriptionFree
  cases st.subsById.get? sub <;> simp

lemma Signed.subscribe (h : st.Signed) : (st.subscribe shape sub now).1.Signed := by
  refine ⟨fun id sig => ?_,fun id hid => ?_⟩
  · simpa using h.signed id sig
  · rw [sigOf_subscribe] at hid
    simpa using h.live id hid

lemma Signed.unsubscribe (h : st.Signed) : (st.unsubscribe shape sub).1.Signed := by
  refine ⟨fun id sig => ?_,fun id hid => ?_⟩
  · simpa using h.signed id sig
  · rw [sigOf_unsubscribe] at hid
    simpa using h.live id hid

/-- A claim on a shape keeps the relation if no other shape holds the id. -/
theorem Related.subscribe (h : st.Related) (hfree : st.subscriptionFree sub shape = true) :
    (st.subscribe shape sub now).1.Related := by
  by_cases hshared : st.sigOf shape = none
  · rw [subscribe_unshared hshared]
    exact h
  refine ⟨h.toSigned.subscribe,fun id x => ?_⟩
  rw [subsById_subscribe hshared,lease_subscribe hshared]
  by_cases hx : sub = x
  · subst hx
    simp only [if_true,and_true,Option.some.injEq]
    split_ifs with hid
    · simpa using hid
    · refine ⟨fun hcontra => absurd hcontra hid,fun hlease => ?_⟩
      exact (subscriptionFree_iff.mp hfree id ((h.owner id sub).mpr hlease)).symm
  · simpa [hx] using h.owner id x

theorem Related.unsubscribe (h : st.Related) : (st.unsubscribe shape sub).1.Related := by
  refine ⟨h.toSigned.unsubscribe,fun id x => ?_⟩
  rw [subsById_unsubscribe,lease_unsubscribe]
  by_cases hx : sub = x
  · subst hx
    have howner := h.owner shape sub
    by_cases hid : shape = id
    · subst hid
      by_cases hlease : st.lease shape sub = none
      · have hnot := mt howner.mp (not_not_intro hlease)
        simpa [hlease] using hnot
      · simp [Option.isSome_iff_ne_none,hlease,howner.mpr hlease]
    · by_cases hlease : st.lease shape sub = none
      · simpa [hlease,hid] using h.owner id sub
      · have hnot : st.lease id sub = none := by
          by_contra hother
          exact hid (h.one_shape hlease hother)
        simp [Option.isSome_iff_ne_none,hlease,howner.mpr hlease,hid,hnot]
  · simpa [hx] using h.owner id x

section
variable {expired : List (String × String)}

lemma unsubscribeAll_cons (p : String × String) :
    st.unsubscribeAll (p::expired) = (st.unsubscribe p.1 p.2).1.unsubscribeAll expired := rfl

@[simp] lemma shapes_unsubscribeAll : (st.unsubscribeAll expired).shapes = st.shapes := by
  induction expired generalizing st with
  | nil => rfl
  | cons p expired ih => rw [unsubscribeAll_cons,ih,shapes_unsubscribe]

@[simp] lemma nextShapeId_unsubscribeAll :
    (st.unsubscribeAll expired).nextShapeId = st.nextShapeId := by
  induction expired generalizing st with
  | nil => rfl
  | cons p expired ih => rw [unsubscribeAll_cons,ih,nextShapeId_unsubscribe]

@[simp] lemma sigOf_unsubscribeAll (id : String) :
    (st.unsubscribeAll expired).sigOf id = st.sigOf id := by
  induction expired generalizing st with
  | nil => rfl
  | cons p expired ih => rw [unsubscribeAll_cons,ih,sigOf_unsubscribe]

lemma lease_unsubscribeAll (id x : String) :
    (st.unsubscribeAll expired).lease id x = if (id,x) ∈ expired then none else st.lease id x := by
  induction expired generalizing st with
  | nil => simp [unsubscribeAll]
  | cons p expired ih =>
    obtain ⟨shape,sub⟩ := p
    rw [unsubscribeAll_cons,ih,lease_unsubscribe]
    by_cases hmem : (id,x) ∈ expired
    · simp [hmem]
    · simp only [hmem,List.mem_cons,Prod.mk.injEq,or_false,if_false]
      exact if_congr ⟨fun h => ⟨h.1.symm,h.2.symm⟩,fun h => ⟨h.1.symm,h.2.symm⟩⟩ rfl rfl

lemma Signed.unsubscribeAll (h : st.Signed) : (st.unsubscribeAll expired).Signed := by
  induction expired generalizing st with
  | nil => exact h
  | cons p expired ih => exact ih h.unsubscribe

theorem Related.unsubscribeAll (h : st.Related) : (st.unsubscribeAll expired).Related := by
  induction expired generalizing st with
  | nil => exact h
  | cons p expired ih => exact ih h.unsubscribe

end

@[simp] lemma shapes_retire (id : String) : (st.retire id).shapes = st.shapes.erase id := by
  rw [retire,forgetSubscriptions_shapes]

@[simp] lemma nextShapeId_retire (id : String) : (st.retire id).nextShapeId = st.nextShapeId :=
  forgetSubscriptions_next

lemma sigOf_retire (id id' : String) :
    (st.retire id).sigOf id' = if id = id' then none else st.sigOf id' := by
  simp only [sigOf,retire,forgetSubscriptions_shares,AssocMap.get?_erase,beq_iff_eq]
  split_ifs <;> rfl

lemma lease_retire (id id' x : String) :
    (st.retire id).lease id' x = if id = id' then none else st.lease id' x := by
  simp only [lease,retire,forgetSubscriptions_shares,AssocMap.get?_erase,beq_iff_eq]
  split_ifs <;> rfl

lemma subsById_retire (id x : String) :
    (st.retire id).subsById.get? x =
      if (st.lease id x).isSome ∧ st.subsById.get? x = some id then none
      else st.subsById.get? x := subsById_forget x

lemma feedBySig_retire (id sig : String) :
    (st.retire id).feedBySig.get? sig =
      if st.sigOf id = some sig then none else st.feedBySig.get? sig := by
  simp only [retire,sigOf,forgetSubscriptions_shares,forgetSubscriptions_sigs]
  obtain hshare | ⟨share,hshare⟩ := (st.feedShares.get? id).eq_none_or_eq_some
  · simp [hshare]
  · simp [hshare,AssocMap.get?_erase]

lemma Signed.retire (h : st.Signed) (id : String) : (st.retire id).Signed := by
  refine ⟨fun id' sig => ?_,fun id' hid' => ?_⟩
  · rw [feedBySig_retire,sigOf_retire]
    have hsigned := h.signed id' sig
    by_cases hid : id = id'
    · subst hid
      by_cases hsig : st.sigOf id = some sig
      · simp [hsig]
      · simpa [hsig] using mt hsigned.mp hsig
    · rw [if_neg hid,← hsigned]
      by_cases hsig : st.sigOf id = some sig
      · simp [hsig,(h.signed id sig).mpr hsig,hid]
      · simp [hsig]
  · rw [sigOf_retire] at hid'
    by_cases hid : id = id'
    · simp [hid] at hid'
    · rw [if_neg hid] at hid'
      simpa [AssocMap.get?_erase,hid] using h.live id' hid'

theorem Related.retire (h : st.Related) (id : String) : (st.retire id).Related := by
  refine ⟨h.toSigned.retire id,fun id' x => ?_⟩
  rw [subsById_retire,lease_retire]
  have howner := h.owner id' x
  by_cases hid : id = id'
  · subst hid
    by_cases hlease : st.lease id x = none
    · have hnot := mt howner.mp (not_not_intro hlease)
      simpa [hlease] using hnot
    · simp [Option.isSome_iff_ne_none,hlease,howner.mpr hlease]
  · rw [if_neg hid,← howner]
    by_cases howned : st.subsById.get? x = some id
    · simp [howned,Option.isSome_iff_ne_none,(h.owner id x).mp howned,hid]
    · simp [howned]

/-- Where the tables are related, a create is rolled back as a shape is retired. -/
theorem rollbackCreate_eq (h : st.Signed) (id : String) : st.rollbackCreate id = st.retire id := by
  have hforget : forgetSubscriptions { st with shapes := st.shapes.erase id } id =
      { st.forgetSubscriptions id with shapes := st.shapes.erase id } := by
    unfold forgetSubscriptions
    cases st.feedShares.get? id <;> rfl
  unfold rollbackCreate retire
  rw [hforget]
  simp only [forgetSubscriptions_shares,forgetSubscriptions_sigs,forgetSubscriptions_shapes]
  cases hshare : st.feedShares.get? id with
  | none => rfl
  | some share =>
    have hsig : st.feedBySig.get? share.sig = some id :=
      (h.signed id share.sig).mpr (by rw [sigOf,hshare]; rfl)
    simp only [hsig,if_true]

section
variable {rec : ShapeRecord D} {sig : String}

@[simp] lemma shapes_register : (st.register rec sig sub now).shapes = st.shapes.insert rec.id rec :=
  shapes_subscribe

@[simp] lemma nextShapeId_register :
    (st.register rec sig sub now).nextShapeId = st.nextShapeId+1 := nextShapeId_subscribe

lemma sigOf_register (id : String) :
    (st.register rec sig sub now).sigOf id = if rec.id = id then some sig else st.sigOf id := by
  rw [register,sigOf_subscribe]
  simp only [sigOf,AssocMap.get?_insert,beq_iff_eq]
  split_ifs <;> rfl

lemma feedBySig_register (s : String) :
    (st.register rec sig sub now).feedBySig.get? s =
      if sig = s then some rec.id else st.feedBySig.get? s := by
  rw [register,feedBySig_subscribe,AssocMap.get?_insert]
  simp only [beq_iff_eq]

/-- A shape that is new to the tables holds the subscription of its create and no other. -/
lemma lease_register (hnew : st.sigOf rec.id = none) (id x : String) :
    (st.register rec sig sub now).lease id x =
      if rec.id = id ∧ sub = x then some now else st.lease id x := by
  rw [register,lease_subscribe (by simp [sigOf])]
  have hnone : st.feedShares.get? rec.id = none := Option.map_eq_none_iff.mp hnew
  by_cases hid : rec.id = id
  · subst hid
    simp [lease,hnone,renewedLease]
  · simp [lease,AssocMap.get?_insert,hid]

lemma subsById_register (x : String) :
    (st.register rec sig sub now).subsById.get? x =
      if sub = x then some rec.id else st.subsById.get? x :=
  subsById_subscribe (by simp [sigOf]) x

lemma Signed.register (h : st.Signed) (hnew : st.sigOf rec.id = none)
    (hsig : st.feedBySig.get? sig = none) : (st.register rec sig sub now).Signed := by
  refine ⟨fun id s => ?_,fun id hid => ?_⟩
  · rw [feedBySig_register,sigOf_register]
    by_cases hs : sig = s
    · subst hs
      have hnone : ∀ id, st.sigOf id ≠ some sig := fun id hother => by
        rw [(h.signed id sig).mpr hother] at hsig
        cases hsig
      by_cases hid : rec.id = id <;> simp [hid,hnone]
    · by_cases hid : rec.id = id
      · subst hid
        have hno := mt (h.signed rec.id s).mp (by simp [hnew])
        simp [hs,hno]
      · simpa [hs,hid] using h.signed id s
  · rw [sigOf_register] at hid
    rw [shapes_register,AssocMap.get?_insert]
    by_cases hrec : rec.id = id
    · simp [hrec]
    · simpa [hrec] using h.live id (by simpa [hrec] using hid)

/-- A create keeps the relation if no shape holds its id or its signature. -/
theorem Related.register (h : st.Related) (hnew : st.sigOf rec.id = none)
    (hsub : st.subsById.get? sub = none) (hsig : st.feedBySig.get? sig = none) :
    (st.register rec sig sub now).Related := by
  refine ⟨h.toSigned.register hnew hsig,fun id x => ?_⟩
  rw [subsById_register,lease_register hnew]
  by_cases hx : sub = x
  · subst hx
    have hnone : ∀ id, st.lease id sub = none := fun id => by
      by_contra hlease
      rw [(h.owner id sub).mpr hlease] at hsub
      cases hsub
    by_cases hid : rec.id = id <;> simp [hid,hnone]
  · simpa [hx] using h.owner id x

end
end
end EngineState
end ElectricCircuits
