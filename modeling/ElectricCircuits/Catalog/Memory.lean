import ElectricCircuits.Catalog.Restore

/-! The fold of the stored catalog log is the memory: what a crash at a quiet moment restores. -/
namespace ElectricCircuits

namespace CatalogFold
variable {D : Type*}

def applyAll (f : CatalogFold D) (evs : List (CatalogEvent D)) : CatalogFold D := evs.foldl apply f

/-- The fold of what one process appended, over the fold of what was there before it. -/
def foldLog (f : CatalogFold D) (nonce : String) (log : List (CatalogSend (CatalogEvent D))) :
    CatalogFold D :=
  log.foldl (fun f m => f.applyOnce (nonce,m.seq) m.ev) f

lemma edit_seen (f : CatalogFold D) (id : String) (change : Restored D → Restored D)
    (seen : List (String × ℕ)) :
    edit { f with seen } id change = { f.edit id change with seen } := by
  unfold edit
  cases f.recs.get? id <;> rfl

lemma apply_seen (f : CatalogFold D) (ev : CatalogEvent D) (seen : List (String × ℕ)) :
    apply { f with seen } ev = { f.apply ev with seen } := by
  cases ev with
  | dropped id =>
    unfold apply
    dsimp only
    cases f.recs.get? id <;> rfl
  | joined | left | dormant | reactivated | backfillSized => exact edit_seen _ _ _ _
  | _ => rfl

lemma foldLog_append (f : CatalogFold D) (nonce : String)
    (log log' : List (CatalogSend (CatalogEvent D))) :
    f.foldLog nonce (log ++ log') = (f.foldLog nonce log).foldLog nonce log' := List.foldl_append

/-- The fold applies what the log repeats once. -/
theorem foldLog_repeats {f : CatalogFold D} {nonce : String}
    {past log : List (CatalogSend (CatalogEvent D))} (h : CatalogWriter.Repeats past log)
    (hnodup : (past.map (·.seq)).Nodup) (hfresh : ∀ n, (nonce,n) ∉ f.seen) :
    f.foldLog nonce log = { f.applyAll (past.map (·.ev)) with
      seen := (past.map fun m => (nonce,m.seq)).reverse ++ f.seen } := by
  induction h with
  | nil => rfl
  | @store past log h m ih =>
    rw [List.map_append,List.nodup_append] at hnodup
    have hnew : (nonce,m.seq) ∉ (past.map fun m => (nonce,m.seq)).reverse ++ f.seen := by
      rw [List.mem_append,List.mem_reverse,List.mem_map]
      rintro (⟨m',hm',heq⟩ | hold)
      · exact hnodup.2.2 _ (List.mem_map_of_mem hm') m.seq (by simp) (Prod.ext_iff.mp heq).2
      · exact hfresh _ hold
    rw [foldLog_append,ih hnodup.1]
    simp only [foldLog,List.foldl_cons,List.foldl_nil,applyOnce,if_neg hnew]
    rw [apply_seen,apply_seen]
    simp [applyAll]
  | @again past log m h ih =>
    have hseen : (nonce,m.seq) ∈ ((past ++ [m]).map fun m => (nonce,m.seq)).reverse ++ f.seen := by
      simp
    rw [foldLog_append,ih hnodup]
    simp only [foldLog,List.foldl_cons,List.foldl_nil,applyOnce,if_pos hseen]

section
variable (f : CatalogFold D) (id id' : String)

lemma recs_edit (change : Restored D → Restored D) : (f.edit id change).recs.get? id' =
    if id = id' then (f.recs.get? id).map change else f.recs.get? id' := by
  unfold edit
  cases hrec : f.recs.get? id with
  | none =>
    split_ifs with hid
    · rw [← hid,hrec]
      rfl
    · rfl
  | some r => simp [AssocMap.get?_insert]

lemma recs_created (rec : ShapeRecord D) (sig : Option String) (sub : String) (now : ℕ) :
    (f.apply (.created rec sig sub now)).recs.get? id =
      if rec.id = id then some ⟨rec,sig,AssocMap.empty.insert sub now,none⟩
      else f.recs.get? id := AssocMap.get?_insert_eq _ _ _ _

lemma recs_dropped : (f.apply (.dropped id)).recs.get? id' =
    if id = id' then none else f.recs.get? id' := by
  cases hrec : f.recs.get? id with
  | none =>
    simp only [apply,hrec]
    split_ifs with hid
    · exact hid ▸ hrec
    · rfl
  | some r => simp [apply,hrec,AssocMap.get?_erase]

end
end CatalogFold

/-- The shape of what a task has yet to do. -/
def Late.shape : Late → String
  | .left shape _ => shape
  | .rolledBack id _ => id
  | .dormant id _ => id

/-- Where a shape of this life is parked. One that wakes up is parked until its `Reactivated` is
queued. -/
def ShapeLife.parked (wakes : List Wake) : ShapeLife → Option Parked
  | .dormant parked => some parked
  | .reactivating _ j =>
    (wakes[j]?).bind fun w => if w.phase = .running then some w.parked else none
  | _ => none

namespace Engine
variable {D : Type*}

def dormancy (e : Engine D) (id : String) : Option Parked :=
  (e.lives.get? id).bind (·.parked e.wakes)

/-- The fold of all that the tasks have sent. -/
def folded (e : Engine D) (base : CatalogFold D) : CatalogFold D :=
  base.applyAll (e.catalog.sent.map (·.ev))

/-- What the catalog has of a subscription: what the memory has, unless its `Left` is still to come. A
poll may have renewed it, or put it back, without a word. -/
def SubOk (e : Engine D) (id x : String) (t : Option ℕ) : Prop :=
  t = e.st.lease id x ∨
  (Late.left id x ∈ e.late ∧ (e.st.lease id x = none ∨ (id,x) ∈ e.polled)) ∨
  ((id,x) ∈ e.polled ∧ ∀ n, t = some n → ∃ m ≥ n, e.st.lease id x = some m)

/-- The record of a shape says what the memory does, unless its `Dormant` is still to come. -/
structure Matches (e : Engine D) (rec : ShapeRecord D) (id : String) (r : Restored D) : Prop where
  record : { r.record with backfill := rec.backfill } = rec
  sig : r.sig = e.st.sigOf id
  subs : ∀ x, e.SubOk id x (r.subs.get? x)
  dormant : r.dormant = e.dormancy id ∨
    ∃ parked, e.dormancy id = some parked ∧ Late.dormant id parked ∈ e.late

/-- The fold and the memory agree about a shape, unless its `Dropped` is still to come. -/
def Agrees (e : Engine D) (id : String) (r : Option (Restored D)) : Prop :=
  match e.st.shapes.get? id with
  | some rec => ∃ r', r = some r' ∧ e.Matches rec id r'
  | none => r = none ∨ Late.rolledBack id true ∈ e.late

/-- What the memory has of the shape that a late event is about. -/
def LateOk (e : Engine D) : Late → Prop
  | .left id x => e.st.lease id x = none ∨ (id,x) ∈ e.polled
  | .rolledBack id _ => e.st.shapes.get? id = none
  | .dormant id parked => e.st.shapes.get? id = none ∨ e.dormancy id = some parked

structure Recorded (base : CatalogFold D) (e : Engine D) : Prop where
  agrees : ∀ id, e.Agrees id ((e.folded base).recs.get? id)
  late : ∀ l ∈ e.late, e.Minted l.shape ∧ e.LateOk l

section
variable {e f : Engine D} {base : CatalogFold D}

lemma folded_send (ev : CatalogEvent D) (done : Bool) :
    (e.send ev done).folded base = (e.folded base).apply ev := by
  simp [folded,Engine.send,CatalogWriter.sent_send,CatalogFold.applyAll]

/-- The memory of a shape is the same. -/
structure SameShape (e f : Engine D) (id : String) : Prop where
  shape : f.st.shapes.get? id = e.st.shapes.get? id
  sig : f.st.sigOf id = e.st.sigOf id
  lease : ∀ x, f.st.lease id x = e.st.lease id x
  dormancy : f.dormancy id = e.dormancy id

lemma SubOk.mono {id x : String} {t : Option ℕ} (h : e.SubOk id x t)
    (hlease : f.st.lease id x = e.st.lease id x)
    (hlate : Late.left id x ∈ e.late → Late.left id x ∈ f.late)
    (hpolled : (id,x) ∈ e.polled → (id,x) ∈ f.polled) : f.SubOk id x t := by
  unfold SubOk
  rw [hlease]
  exact h.imp_right (.imp (.imp hlate (Or.imp_right hpolled)) (And.imp_left hpolled))

lemma Agrees.mono {id : String} {r : Option (Restored D)} (h : e.Agrees id r) (hsame : e.SameShape f id)
    (hlate : ∀ l ∈ e.late, l.shape = id → l ∈ f.late)
    (hpolled : ∀ x, (id,x) ∈ e.polled → (id,x) ∈ f.polled) : f.Agrees id r := by
  unfold Agrees at h ⊢
  rw [hsame.shape]
  cases hshape : e.st.shapes.get? id with
  | none =>
    rw [hshape] at h
    exact h.imp_right fun hrolled => hlate _ hrolled rfl
  | some rec =>
    rw [hshape] at h
    obtain ⟨r',hr,hm⟩ := h
    refine ⟨r',hr,hm.record,hm.sig.trans hsame.sig.symm,fun x => ?_,?_⟩
    · exact (hm.subs x).mono (hsame.lease x) (fun hl => hlate _ hl rfl) (hpolled x)
    · rw [hsame.dormancy]
      exact hm.dormant.imp_right fun ⟨parked,hd,hl⟩ => ⟨parked,hd,hlate _ hl rfl⟩

lemma LateOk.mono {l : Late} (h : e.LateOk l) (hsame : e.SameShape f l.shape)
    (hpolled : ∀ x, (l.shape,x) ∈ e.polled → (l.shape,x) ∈ f.polled) : f.LateOk l := by
  cases l with
  | left id x => exact h.imp (fun hl => (hsame.lease x).trans hl) (hpolled x)
  | rolledBack id b => exact hsame.shape.trans h
  | dormant id parked =>
    exact h.imp (fun hs => hsame.shape.trans hs) fun hd => hsame.dormancy.trans hd

/-- The memory and the fold stay as they are. -/
lemma Recorded.same (h : Recorded base e) (hsame : ∀ id, e.SameShape f id)
    (hnext : e.st.nextShapeId ≤ f.st.nextShapeId)
    (hrecs : ∀ id, (f.folded base).recs.get? id = (e.folded base).recs.get? id)
    (hlate : f.late = e.late) (hpolled : f.polled = e.polled) : Recorded base f := by
  refine ⟨fun id => ?_,fun l hl => ?_⟩
  · rw [hrecs]
    exact (h.agrees id).mono (hsame id) (fun l hl _ => hlate ▸ hl) fun x hx => hpolled ▸ hx
  · obtain ⟨hminted,hok⟩ := h.late l (hlate ▸ hl)
    exact ⟨hminted.mono hnext,hok.mono (hsame _) fun x hx => hpolled ▸ hx⟩

/-- What is known of one shape changes. -/
lemma Recorded.one (h : Recorded base e) (id : String)
    (hothers : ∀ id', id ≠ id' → e.SameShape f id' ∧
      (f.folded base).recs.get? id' = (e.folded base).recs.get? id')
    (hnext : e.st.nextShapeId ≤ f.st.nextShapeId)
    (hlate : ∀ l ∈ e.late, id ≠ l.shape → l ∈ f.late)
    (hpolled : ∀ p ∈ e.polled, p ∈ f.polled) (hid : f.Agrees id ((f.folded base).recs.get? id))
    (hnew : ∀ l ∈ f.late, l ∈ e.late ∧ (id ≠ l.shape ∨ f.LateOk l) ∨ f.Minted l.shape ∧ f.LateOk l) :
    Recorded base f := by
  refine ⟨fun id' => ?_,fun l hl => ?_⟩
  · by_cases heq : id = id'
    · exact heq ▸ hid
    · obtain ⟨hsame,hrecs⟩ := hothers id' heq
      rw [hrecs]
      exact (h.agrees id').mono hsame (fun l hl hs => hlate l hl (hs ▸ heq)) fun x hx => hpolled _ hx
  · rcases hnew l hl with ⟨hold,hcase⟩ | hnew
    · obtain ⟨hminted,hok⟩ := h.late l hold
      refine ⟨hminted.mono hnext,?_⟩
      rcases hcase with heq | hok'
      · exact hok.mono (hothers _ heq).1 fun x hx => hpolled _ hx
      · exact hok'
    · exact hnew

/-- Agreement about a shape after the same change on both sides. -/
lemma Agrees.change {id : String} {r : Option (Restored D)} (h : e.Agrees id r)
    (hshape : f.st.shapes.get? id = e.st.shapes.get? id) (change : Restored D → Restored D)
    (hlate : Late.rolledBack id true ∈ e.late → Late.rolledBack id true ∈ f.late)
    (hm : ∀ rec r, e.Matches rec id r → f.Matches rec id (change r)) :
    f.Agrees id (r.map change) := by
  unfold Agrees at h ⊢
  rw [hshape]
  cases hrec : e.st.shapes.get? id with
  | none =>
    rw [hrec] at h
    exact h.imp (fun hr => by rw [hr]; rfl) hlate
  | some rec =>
    rw [hrec] at h
    obtain ⟨r',rfl,hm'⟩ := h
    exact ⟨_,rfl,hm rec r' hm'⟩

lemma Agrees.keep {id : String} {r : Option (Restored D)} (h : e.Agrees id r)
    (hshape : f.st.shapes.get? id = e.st.shapes.get? id)
    (hlate : Late.rolledBack id true ∈ e.late → Late.rolledBack id true ∈ f.late)
    (hm : ∀ rec r, e.Matches rec id r → f.Matches rec id r) : f.Agrees id r := by
  simpa using h.change hshape (fun r => r) hlate hm

lemma dormancy_congr {id : String} (hlife : f.lives.get? id = e.lives.get? id)
    (hwakes : f.wakes = e.wakes) : f.dormancy id = e.dormancy id := by
  unfold dormancy
  rw [hlife,hwakes]

lemma folded_sendIf (b : Bool) (ev : CatalogEvent D) (done : Bool) :
    (e.sendIf b ev done).folded base = if b then (e.folded base).apply ev else e.folded base := by
  unfold sendIf
  split_ifs
  · exact folded_send ev done
  · rfl

lemma renewedLease_mono {t l : Option ℕ} (h : ∀ n, t = some n → ∃ m ≥ n, l = some m) (now : ℕ) :
    ∃ m ≥ renewedLease t now, some (renewedLease l now) = some m := by
  refine ⟨_,?_,rfl⟩
  cases ht : t with
  | none => cases l <;> simp [renewedLease]
  | some n =>
    obtain ⟨m,hm,rfl⟩ := h n ht
    exact max_le_max_right now hm

/-- A claim is taken or renewed on both sides. -/
lemma SubOk.join {id sub x : String} {t : Option ℕ} {now : ℕ} (h : e.SubOk id x t)
    (hlate : Late.left id sub ∉ e.late)
    (hlease : f.st.lease id x =
      if id = id ∧ sub = x then some (renewedLease (e.st.lease id sub) now) else e.st.lease id x)
    (hl : f.late = e.late) (hp : f.polled = e.polled) :
    f.SubOk id x (if sub = x then some (renewedLease t now) else t) := by
  by_cases hx : sub = x
  · subst hx
    unfold SubOk
    simp only [true_and,if_true] at hlease
    rw [if_pos rfl,hlease,hl,hp]
    rcases h with rfl | ⟨hleft,-⟩ | ⟨hpolled,hold⟩
    · exact .inl rfl
    · exact absurd hleft hlate
    · refine .inr (.inr ⟨hpolled,fun n hn => ?_⟩)
      rw [← Option.some.inj hn]
      exact renewedLease_mono hold now
  · rw [if_neg hx]
    refine h.mono (hlease.trans (if_neg fun hs => hx hs.2)) (fun hleft => hl ▸ hleft) fun hpolled => hp ▸ hpolled

theorem Recorded.join (h : Recorded base e) (hbase : e.Base) {sig sub id : String}
    {rec : ShapeRecord D} (now : ℕ) (hsig : e.st.feedBySig.get? sig = some id)
    (hlate : Late.left id sub ∉ e.late) : Recorded base (e.join rec id sig sub now) := by
  have hshared : e.st.sigOf id ≠ none := by simp [hbase.shared hsig]
  have hlease : ∀ id' x, (e.join rec id sig sub now).st.lease id' x =
      if id = id' ∧ sub = x then some (renewedLease (e.st.lease id sub) now) else e.st.lease id' x :=
    EngineState.lease_subscribe hshared
  have hshapes : ∀ id', (e.join rec id sig sub now).st.shapes.get? id' = e.st.shapes.get? id' :=
    fun id' => congrArg (fun m : AssocMap String (ShapeRecord D) => m.get? id')
      EngineState.shapes_subscribe
  have hrecs : ∀ id', ((e.join rec id sig sub now).folded base).recs.get? id' =
      if id = id' then ((e.folded base).recs.get? id).map fun r =>
        { r with subs := r.subs.insert sub (renewedLease (r.subs.get? sub) now) }
      else (e.folded base).recs.get? id' := fun id' => by
    rw [Engine.join,folded_send]
    exact CatalogFold.recs_edit _ _ _ _
  refine h.one id (fun id' hne => ⟨⟨hshapes id',EngineState.sigOf_subscribe id',fun x => ?_,rfl⟩,?_⟩)
    EngineState.nextShapeId_subscribe.ge (fun _ hl _ => hl) (fun _ hp => hp) ?_ fun l hl => .inl ⟨hl,?_⟩
  · rw [hlease,if_neg fun hs => hne hs.1]
  · rw [hrecs,if_neg hne]
  · rw [hrecs,if_pos rfl]
    refine (h.agrees id).change (hshapes id) _ (fun hl => hl) fun rec r hm => ?_
    refine ⟨hm.record,hm.sig.trans (EngineState.sigOf_subscribe id).symm,fun x => ?_,hm.dormant⟩
    have hsub := (hm.subs x).join hlate (hlease id x) rfl rfl
    by_cases hx : sub = x
    · subst hx
      simpa using hsub
    · simpa [AssocMap.get?_insert,hx] using hsub
  · by_cases hid : id = l.shape
    · right
      obtain ⟨-,hok⟩ := h.late l hl
      cases l with
      | left id' x =>
        obtain rfl : id = id' := hid
        have hx : sub ≠ x := fun heq => hlate (heq ▸ hl)
        exact hok.imp_left fun hnone => (hlease id x).trans ((if_neg fun hs => hx hs.2).trans hnone)
      | rolledBack id' b => exact (hshapes id').trans hok
      | dormant id' parked => exact hok.imp_left (hshapes id').trans
    · exact .inl hid

lemma shapes_claims (st : EngineState D) (hshapes : st.shapes = e.st.shapes) (id : String) :
    st.shapes.get? id = e.st.shapes.get? id :=
  congrArg (fun m : AssocMap String (ShapeRecord D) => m.get? id) hshapes

/-- Other requests and claims do not matter here. -/
lemma Recorded.requests (h : Recorded base e) (requests : List Request) (promised : List Claim) :
    Recorded base { e with requests, promised } :=
  h.same (fun _ => ⟨rfl,rfl,fun _ => rfl,rfl⟩) le_rfl (fun _ => rfl) rfl rfl

/-- A claim is given back, and its `Left` is queued with it if there was one. -/
theorem Recorded.unsubscribe (h : Recorded base e) (shape sub : String) (lapsed durable : Bool) :
    Recorded base (sendIf { e with st := (e.st.unsubscribe shape sub).1 }
      (e.st.unsubscribe shape sub).2 (.left shape sub lapsed) durable) := by
  cases hlease : e.st.lease shape sub with
  | none =>
    rw [EngineState.unsubscribe_held,hlease,EngineState.unsubscribe_of_none hlease]
    exact h.same (fun _ => ⟨rfl,rfl,fun _ => rfl,rfl⟩) le_rfl (fun _ => rfl) rfl rfl
  | some t =>
    rw [EngineState.unsubscribe_held,hlease]
    have hrecs : ∀ id', ((send { e with st := (e.st.unsubscribe shape sub).1 }
        (.left shape sub lapsed) durable).folded base).recs.get? id' =
        if shape = id' then ((e.folded base).recs.get? shape).map fun r =>
          { r with subs := r.subs.erase sub }
        else (e.folded base).recs.get? id' := fun id' => by
      rw [folded_send]
      exact CatalogFold.recs_edit _ _ _ _
    have hshapes := fun id' => shapes_claims (e := e) (e.st.unsubscribe shape sub).1
      EngineState.shapes_unsubscribe id'
    refine h.one shape (fun id' hne => ⟨⟨hshapes id',EngineState.sigOf_unsubscribe id',fun x => ?_,rfl⟩,?_⟩)
      EngineState.nextShapeId_unsubscribe.ge (fun _ hl _ => hl) (fun _ hp => hp) ?_
      fun l hl => .inl ⟨hl,.inr ?_⟩
    · exact (EngineState.lease_unsubscribe id' x).trans (if_neg fun hs => hne hs.1)
    · exact (hrecs id').trans (if_neg hne)
    · refine ((hrecs shape).trans (if_pos rfl)).symm ▸ (h.agrees shape).change (hshapes shape) _
        (fun hl => hl) fun rec r hm => ?_
      refine ⟨hm.record,hm.sig.trans (EngineState.sigOf_unsubscribe shape).symm,fun x => ?_,hm.dormant⟩
      by_cases hx : sub = x
      · subst hx
        refine .inl ?_
        rw [AssocMap.get?_erase,if_pos (by simp)]
        exact (EngineState.lease_unsubscribe shape sub).symm ▸ (if_pos ⟨rfl,rfl⟩).symm
      · rw [AssocMap.get?_erase,if_neg (by simpa using hx)]
        exact (hm.subs x).mono ((EngineState.lease_unsubscribe shape x).trans
          (if_neg fun hs => hx hs.2)) (fun hl => hl) fun hp => hp
    · obtain ⟨-,hok⟩ := h.late l hl
      cases l with
      | left id x =>
        refine hok.imp_left fun hnone => (EngineState.lease_unsubscribe id x).trans ?_
        rw [hnone,ite_self]
      | rolledBack id b => exact (hshapes id).trans hok
      | dormant id parked => exact hok.imp_left (hshapes id).trans

/-- A poll renews a claim, or puts it back, and the catalog is not told. -/
theorem Recorded.renewLocal (h : Recorded base e) (shape sub : String) (now : ℕ) :
    Recorded base (e.renewLocal shape sub now) := by
  have hpolled : ∀ p ∈ e.polled, p ∈ e.polled ++ [(shape,sub)] := fun p => List.mem_append_left _
  by_cases hshared : e.st.sigOf shape = none
  · unfold Engine.renewLocal
    rw [EngineState.subscribe_unshared hshared]
    refine ⟨fun id => ?_,fun l hl => ?_⟩
    · exact (h.agrees id).mono ⟨rfl,rfl,fun _ => rfl,rfl⟩ (fun _ hl _ => hl) fun x => hpolled _
    · obtain ⟨hminted,hok⟩ := h.late l hl
      exact ⟨hminted,hok.mono ⟨rfl,rfl,fun _ => rfl,rfl⟩ fun x => hpolled _⟩
  have hlease : ∀ id x, (e.renewLocal shape sub now).st.lease id x =
      if shape = id ∧ sub = x then some (renewedLease (e.st.lease shape sub) now)
      else e.st.lease id x := EngineState.lease_subscribe hshared
  have hshapes := fun id => shapes_claims (e := e) (e.st.subscribe shape sub now).1
    EngineState.shapes_subscribe id
  have hself : (shape,sub) ∈ e.polled ++ [(shape,sub)] := by simp
  refine h.one shape (fun id hne => ⟨⟨hshapes id,EngineState.sigOf_subscribe id,fun x => ?_,rfl⟩,rfl⟩)
    EngineState.nextShapeId_subscribe.ge (fun _ hl _ => hl) hpolled ?_ fun l hl => .inl ⟨hl,.inr ?_⟩
  · exact (hlease id x).trans (if_neg fun hs => hne hs.1)
  · refine (h.agrees shape).keep (hshapes shape) (fun hl => hl) fun rec r hm => ?_
    refine ⟨hm.record,hm.sig.trans (EngineState.sigOf_subscribe shape).symm,fun x => ?_,hm.dormant⟩
    by_cases hx : sub = x
    · subst hx
      have hl := (hlease shape sub).trans (if_pos ⟨rfl,rfl⟩)
      rcases hm.subs sub with heq | ⟨hleft,-⟩ | ⟨-,hold⟩
      · refine .inr (.inr ⟨hself,fun n hn => ⟨_,?_,hl⟩⟩)
        rw [← heq,hn]
        exact le_max_left n now
      · exact .inr (.inl ⟨hleft,.inr hself⟩)
      · refine .inr (.inr ⟨hself,fun n hn => ⟨_,?_,hl⟩⟩)
        obtain ⟨m,hm,hlease'⟩ := hold n hn
        rw [hlease']
        exact hm.trans (le_max_left m now)
    · exact (hm.subs x).mono ((hlease shape x).trans (if_neg fun hs => hx hs.2)) (fun hl => hl)
        (hpolled _)
  · obtain ⟨-,hok⟩ := h.late l hl
    cases l with
    | left id x =>
      by_cases hx : shape = id ∧ sub = x
      · obtain ⟨rfl,rfl⟩ := hx
        exact .inr hself
      · exact hok.imp (fun hnone => (hlease id x).trans ((if_neg hx).trans hnone)) (hpolled _)
    | rolledBack id b => exact (hshapes id).trans hok
    | dormant id parked => exact hok.imp_left (hshapes id).trans

lemma shared_of_lapsed {window now : ℕ} {p : String × String}
    (hp : p ∈ e.st.lapsedSubscriptions window now) : e.st.sigOf p.1 ≠ none := by
  unfold EngineState.lapsedSubscriptions at hp
  split_ifs at hp
  · cases hp
  · rw [List.mem_flatMap] at hp
    obtain ⟨entry,hentry,hmem⟩ := hp
    obtain ⟨l,-,rfl⟩ := List.mem_map.mp hmem
    simp [EngineState.sigOf,AssocMap.get?_of_mem hentry]

/-- A sweep takes claims back and leaves the telling for later. -/
theorem Recorded.sweepLeases (h : Recorded base e) (hbase : e.Base) (window now : ℕ) :
    Recorded base (e.sweepLeases window now) := by
  have hlease : ∀ id x, (e.sweepLeases window now).st.lease id x =
      if (id,x) ∈ e.st.lapsedSubscriptions window now then none else e.st.lease id x :=
    EngineState.lease_unsubscribeAll
  have hshapes := fun id => shapes_claims (e := e)
    (e.st.unsubscribeAll (e.st.lapsedSubscriptions window now)) EngineState.shapes_unsubscribeAll id
  have hlate : ∀ l ∈ e.late, l ∈ (e.sweepLeases window now).late := fun l => List.mem_append_left _
  have hkeep : ∀ l, e.LateOk l → (e.sweepLeases window now).LateOk l := fun l hok => by
    cases l with
    | left id x =>
      refine hok.imp_left fun hnone => (hlease id x).trans ?_
      rw [hnone,ite_self]
    | rolledBack id b => exact (hshapes id).trans hok
    | dormant id parked => exact hok.imp_left (hshapes id).trans
  refine ⟨fun id => ?_,fun l hl => ?_⟩
  · refine (h.agrees id).keep (hshapes id) (fun hl => hlate _ hl) fun rec r hm => ?_
    refine ⟨hm.record,hm.sig.trans (EngineState.sigOf_unsubscribeAll id).symm,fun x => ?_,
      hm.dormant.imp_right fun ⟨parked,hd,hl⟩ => ⟨parked,hd,hlate _ hl⟩⟩
    by_cases hx : (id,x) ∈ e.st.lapsedSubscriptions window now
    · refine .inr (.inl ⟨List.mem_append_right _ ?_,.inl ((hlease id x).trans (if_pos hx))⟩)
      exact List.mem_map_of_mem (f := fun p : String × String => Late.left p.1 p.2) hx
    · exact (hm.subs x).mono ((hlease id x).trans (if_neg hx)) (fun hl => hlate _ hl) fun hp => hp
  · have hnext : e.st.nextShapeId ≤ (e.sweepLeases window now).st.nextShapeId :=
      EngineState.nextShapeId_unsubscribeAll.ge
    rcases List.mem_append.mp hl with hold | hnew
    · obtain ⟨hminted,hok⟩ := h.late l hold
      exact ⟨hminted.mono hnext,hkeep l hok⟩
    · obtain ⟨p,hp,rfl⟩ := List.mem_map.mp hnew
      refine ⟨(hbase.minted _ (hbase.signed.live _ (shared_of_lapsed hp))).mono hnext,.inl ?_⟩
      exact (hlease p.1 p.2).trans (if_pos hp)

lemma shapes_retire_ne {id id' : String} (hne : id ≠ id') :
    (e.st.retire id).shapes.get? id' = e.st.shapes.get? id' := by
  rw [EngineState.shapes_retire,AssocMap.get?_erase,if_neg (by simpa using hne)]

lemma shapes_retire_self (id : String) : (e.st.retire id).shapes.get? id = none := by
  rw [EngineState.shapes_retire,AssocMap.get?_erase,if_pos (by simp)]

/-- A retired shape is no other shape's business. -/
lemma sameShape_retire {id id' : String} (hne : id ≠ id')
    (hst : f.st = e.st.retire id) (hlives : f.lives.get? id' = e.lives.get? id')
    (hwakes : f.wakes = e.wakes) : e.SameShape f id' where
  shape := by rw [hst,shapes_retire_ne hne]
  sig := by rw [hst,EngineState.sigOf_retire,if_neg hne]
  lease x := by rw [hst,EngineState.lease_retire,if_neg hne]
  dormancy := dormancy_congr hlives hwakes

/-- Nothing late is wrong about a shape that is gone. -/
lemma LateOk.retired {l : Late} (hst : f.st = e.st.retire l.shape) : f.LateOk l := by
  cases l with
  | left id x => exact .inl (by rw [hst,EngineState.lease_retire]; exact if_pos rfl)
  | rolledBack id b => exact (congrArg (·.shapes.get? id) hst).trans (shapes_retire_self id)
  | dormant id parked =>
    exact .inl ((congrArg (·.shapes.get? id) hst).trans (shapes_retire_self id))

lemma Agrees.of_none {id : String} {r : Option (Restored D)} (hshape : f.st.shapes.get? id = none)
    (h : r = none ∨ Late.rolledBack id true ∈ f.late) : f.Agrees id r := by
  unfold Agrees
  rwa [hshape]

lemma Agrees.gone {id : String} {r : Option (Restored D)} (h : e.Agrees id r)
    (hshape : e.st.shapes.get? id = none) : r = none ∨ Late.rolledBack id true ∈ e.late := by
  unfold Agrees at h
  rwa [hshape] at h

theorem Recorded.retire (h : Recorded base e) (id : String) (durable : Bool) :
    Recorded base (e.retire id durable) := by
  have hrecs : ∀ id', ((e.retire id durable).folded base).recs.get? id' =
      if id = id' ∧ (e.st.shapes.get? id).isSome then none else (e.folded base).recs.get? id' :=
    fun id' => by
      change ((sendIf _ _ _ _).folded base).recs.get? id' = _
      rw [folded_sendIf]
      cases e.st.shapes.get? id with
      | none => simp [folded]
      | some rec => simpa [folded] using CatalogFold.recs_dropped (e.folded base) id id'
  obtain ⟨c,hsend⟩ := exists_sendIf { e with st := e.st.retire id, lives := e.lives.erase id }
    (e.st.shapes.get? id).isSome (.dropped id) durable
  have hshape : e.retire id durable = endClaims { e with
      st := e.st.retire id, lives := e.lives.erase id, catalog := c } fun id' _ => id' == id := by
    rw [Engine.retire,hsend]
  have hst : (e.retire id durable).st = e.st.retire id := by rw [hshape]; rfl
  have hlate : (e.retire id durable).late = e.late := by rw [hshape]; rfl
  refine h.one id (fun id' hne => ⟨sameShape_retire hne hst ?_ (by rw [hshape]; rfl),?_⟩) ?_
    (fun l hl _ => hlate ▸ hl) (fun p hp => by rw [hshape]; exact hp) (.of_none ?_ ?_)
    fun l hl => .inl ⟨hlate ▸ hl,?_⟩
  · rw [hshape]
    exact (AssocMap.get?_erase _ _ _).trans (if_neg (by simpa using hne))
  · exact (hrecs id').trans (if_neg fun hs => hne hs.1)
  · rw [hst,EngineState.nextShapeId_retire]
  · rw [hst]
    exact shapes_retire_self id
  · rw [hrecs,hlate]
    split_ifs with hex
    · exact .inl rfl
    · exact (h.agrees id).gone (by simpa using hex)
  · by_cases hid : id = l.shape
    · subst hid
      exact .inr (.retired hst)
    · exact .inl hid

theorem Recorded.undoCreate (h : Recorded base e) (hbase : e.Base) {k : ℕ} {r : Request}
    (hr : e.requests[k]? = some r) : Recorded base (e.undoCreate k r) := by
  have hst : (e.undoCreate k r).st = e.st.retire r.shape := EngineState.rollbackCreate_eq hbase.signed _
  have hnext : e.st.nextShapeId ≤ (e.undoCreate k r).st.nextShapeId := by
    rw [hst,EngineState.nextShapeId_retire]
  refine h.one r.shape (fun id' hne => ⟨sameShape_retire hne hst rfl rfl,rfl⟩) hnext
    (fun l hl _ => List.mem_append_left _ hl) (fun _ hp => hp) (.of_none ?_ ?_) fun l hl => ?_
  · rw [hst]
    exact shapes_retire_self _
  · cases hshape : e.st.shapes.get? r.shape with
    | none => exact ((h.agrees r.shape).gone hshape).imp_right (List.mem_append_left _)
    | some rec =>
      refine .inr (List.mem_append_right _ ?_)
      rw [hshape]
      exact .head _
  · rcases List.mem_append.mp hl with hold | hnew
    · refine .inl ⟨hold,?_⟩
      by_cases hid : r.shape = l.shape
      · exact .inr (.retired (hid ▸ hst))
      · exact .inl hid
    · have hshape : l.shape = r.shape := by rw [List.mem_singleton.mp hnew]; rfl
      refine .inr ⟨?_,.retired (hshape ▸ hst)⟩
      rw [hshape]
      exact (hbase.requests k r hr).1.mono hnext

section
variable {rest : List Late}

/-- A late `Left` is queued. -/
lemma Recorded.finishLeft (h : Recorded base e) {id x : String} (hmem : Late.left id x ∈ e.late)
    (hrest : ∀ l ∈ rest, l ∈ e.late) (hstay : ∀ l ∈ e.late, l ≠ .left id x → l ∈ rest) :
    Recorded base (e.finish rest (.left id x)) := by
  obtain ⟨-,hok⟩ := h.late _ hmem
  have hrecs : ∀ id', ((e.finish rest (.left id x)).folded base).recs.get? id' =
      if id = id' then ((e.folded base).recs.get? id).map fun r =>
        { r with subs := r.subs.erase x }
      else (e.folded base).recs.get? id' := fun id' => by
    rw [Engine.finish,folded_send]
    exact CatalogFold.recs_edit _ _ _ _
  refine h.one id (fun id' hne => ⟨⟨rfl,rfl,fun _ => rfl,rfl⟩,(hrecs id').trans (if_neg hne)⟩) le_rfl
    (fun l hl hne => hstay l hl fun heq => hne (by rw [heq]; rfl)) (fun _ hp => hp) ?_
    fun l hl => .inl ⟨hrest l hl,.inr ?_⟩
  · rw [hrecs,if_pos rfl]
    refine (h.agrees id).change (f := e.finish rest (.left id x)) rfl _ (fun hr => hstay _ hr (by simp))
      fun rec r hm => ⟨hm.record,hm.sig,fun x' => ?_,hm.dormant.imp_right fun ⟨parked,hd,hr⟩ =>
        ⟨parked,hd,hstay _ hr (by simp)⟩⟩
    by_cases hx : x = x'
    · subst hx
      rw [AssocMap.get?_erase,if_pos (by simp)]
      rcases hok with hnone | hpolled
      · exact .inl hnone.symm
      · exact .inr (.inr ⟨hpolled,fun _ hn => by cases hn⟩)
    · rw [AssocMap.get?_erase,if_neg (by simpa using hx)]
      exact (hm.subs x').mono rfl (fun hr => hstay _ hr (by simpa using Ne.symm hx)) fun hp => hp
  · exact (h.late l (hrest l hl)).2.mono ⟨rfl,rfl,fun _ => rfl,rfl⟩ fun _ hp => hp

/-- The rollback of a create forgets the life of its shape, and queues the late `Dropped`. -/
lemma Recorded.finishRolledBack (h : Recorded base e) {id : String} {existed : Bool}
    (hmem : Late.rolledBack id existed ∈ e.late) (hrest : ∀ l ∈ rest, l ∈ e.late)
    (hstay : ∀ l ∈ e.late, l ≠ .rolledBack id existed → l ∈ rest) :
    Recorded base (e.finish rest (.rolledBack id existed)) := by
  have hgone : e.st.shapes.get? id = none := (h.late _ hmem).2
  have hrecs : ∀ id', ((e.finish rest (.rolledBack id existed)).folded base).recs.get? id' =
      if id = id' ∧ existed = true then none else (e.folded base).recs.get? id' := fun id' => by
    rw [Engine.finish,folded_sendIf]
    cases existed with
    | false => simp [folded]
    | true => simpa [folded] using CatalogFold.recs_dropped (e.folded base) id id'
  obtain ⟨c,hsend⟩ := exists_sendIf { e with late := rest, lives := e.lives.erase id } existed
    (.dropped id) false
  have hafter : e.finish rest (.rolledBack id existed) =
      { e with late := rest, lives := e.lives.erase id, catalog := c } := hsend
  refine h.one id (fun id' hne => ⟨?_,?_⟩) (by rw [hafter]) (fun l hl hne => ?_)
    (fun p hp => by rwa [hafter]) (.of_none (by rwa [hafter]) ?_) fun l hl => ?_
  · rw [hafter]
    exact ⟨rfl,rfl,fun _ => rfl,
      dormancy_congr ((AssocMap.get?_erase _ _ _).trans (if_neg (by simpa using hne))) rfl⟩
  · exact (hrecs id').trans (if_neg fun hs => hne hs.1)
  · rw [hafter]
    exact hstay l hl fun heq => hne (by rw [heq]; rfl)
  · rw [hrecs,hafter]
    cases existed with
    | true => exact .inl (if_pos ⟨rfl,rfl⟩)
    | false =>
      rw [if_neg fun hs => Bool.noConfusion hs.2]
      exact ((h.agrees id).gone hgone).imp_right fun hr => hstay _ hr (by simp)
  · rw [hafter] at hl ⊢
    have hold := hrest l hl
    refine .inl ⟨hold,?_⟩
    by_cases hid : id = l.shape
    · refine .inr ?_
      have hok := (h.late l hold).2
      cases l with
      | left id' x => exact hok
      | rolledBack id' b => exact hok
      | dormant id' parked =>
        obtain rfl : id = id' := hid
        exact .inl hgone
    · exact .inl hid

/-- A late `Dormant` is queued. -/
lemma Recorded.finishDormant (h : Recorded base e) {id : String} {parked : Parked}
    (hmem : Late.dormant id parked ∈ e.late) (hrest : ∀ l ∈ rest, l ∈ e.late)
    (hstay : ∀ l ∈ e.late, l ≠ .dormant id parked → l ∈ rest) :
    Recorded base (e.finish rest (.dormant id parked)) := by
  obtain ⟨-,hok⟩ := h.late _ hmem
  have hrecs : ∀ id', ((e.finish rest (.dormant id parked)).folded base).recs.get? id' =
      if id = id' then ((e.folded base).recs.get? id).map fun r => { r with dormant := some parked }
      else (e.folded base).recs.get? id' := fun id' => by
    rw [Engine.finish,folded_send]
    exact CatalogFold.recs_edit _ _ _ _
  refine h.one id (fun id' hne => ⟨⟨rfl,rfl,fun _ => rfl,rfl⟩,(hrecs id').trans (if_neg hne)⟩) le_rfl
    (fun l hl hne => hstay l hl fun heq => hne (by rw [heq]; rfl)) (fun _ hp => hp) ?_
    fun l hl => .inl ⟨hrest l hl,.inr ?_⟩
  · rw [hrecs,if_pos rfl]
    rcases hok with hgone | hparked
    · refine .of_none hgone (((h.agrees id).gone hgone).imp (fun hr => by rw [hr]; rfl) fun hr => ?_)
      exact hstay _ hr (by simp)
    · refine (h.agrees id).change (f := e.finish rest (.dormant id parked)) rfl _
        (fun hr => hstay _ hr (by simp)) fun rec r hm => ⟨hm.record,hm.sig,fun x => ?_,.inl hparked.symm⟩
      exact (hm.subs x).mono rfl (fun hr => hstay _ hr (by simp)) fun hp => hp
  · exact (h.late l (hrest l hl)).2.mono ⟨rfl,rfl,fun _ => rfl,rfl⟩ fun _ hp => hp

end

theorem Recorded.finish (h : Recorded base e) {before after : List Late} {l : Late}
    (hl : e.late = before ++ l::after) : Recorded base (e.finish (before ++ after) l) := by
  have hmem : l ∈ e.late := hl ▸ List.mem_append_right _ (.head _)
  have hrest : ∀ l' ∈ before ++ after, l' ∈ e.late := fun l' hl' => by
    rw [hl]
    rcases List.mem_append.mp hl' with hb | ha
    · exact List.mem_append_left _ hb
    · exact List.mem_append_right _ (.tail _ ha)
  have hstay : ∀ l' ∈ e.late, l' ≠ l → l' ∈ before ++ after := fun l' hl' hne => by
    rw [hl] at hl'
    rcases List.mem_append.mp hl' with hb | ha
    · exact List.mem_append_left _ hb
    · exact List.mem_append_right _ ((List.mem_cons.mp ha).resolve_left hne)
  cases l with
  | left id x => exact h.finishLeft hmem hrest hstay
  | rolledBack id existed => exact h.finishRolledBack hmem hrest hstay
  | dormant id parked => exact h.finishDormant hmem hrest hstay

lemma dormancy_setLife (id id' : String) (life : ShapeLife) : (e.setLife id life).dormancy id' =
    if id = id' then (e.lives.get? id).bind fun _ => life.parked e.wakes else e.dormancy id' := by
  rw [dormancy,lives_setLife]
  split_ifs with hid
  · rw [Option.bind_map]
    rfl
  · rfl

lemma dormancy_of_life {id : String} {life : ShapeLife} (hlife : e.lives.get? id = some life) :
    e.dormancy id = life.parked e.wakes := by
  rw [dormancy,hlife,Option.bind_some]

/-- A life that is no other changes nothing for the catalog. -/
lemma sameShape_setLife {id : String} {old life : ShapeLife} (hold : e.lives.get? id = some old)
    (hparked : life.parked e.wakes = old.parked e.wakes) (id' : String) :
    e.SameShape (e.setLife id life) id' := by
  refine ⟨rfl,rfl,fun _ => rfl,?_⟩
  rw [dormancy_setLife]
  split_ifs with hid
  · subst hid
    rw [dormancy_of_life hold,hold,Option.bind_some,hparked]
  · rfl

/-- A wake is about its own shape. -/
lemma dormancy_wakes {id : String} (h : e.LivesOk) (hlife : f.lives.get? id = e.lives.get? id)
    (hwakes : ∀ (j : ℕ) w, e.wakes[j]? = some w → w.shape = id → f.wakes[j]? = some w) :
    f.dormancy id = e.dormancy id := by
  rw [dormancy,dormancy,hlife]
  cases hl : e.lives.get? id with
  | none => rfl
  | some life =>
    cases life with
    | reactivating resume j =>
      obtain ⟨w,hw,hshape,-⟩ := (h.lives id _ hl).2 resume j rfl
      simp only [Option.bind_some,ShapeLife.parked,hw,hwakes j w hw hshape]
    | _ => rfl

lemma sameShape_touch (h : e.LivesOk) {id : String} {parked : Parked}
    (hlife : e.lives.get? id = some (.dormant parked)) (id' : String) :
    e.SameShape (e.touch id parked) id' := by
  refine ⟨rfl,rfl,fun _ => rfl,?_⟩
  by_cases hid : id = id'
  · subst hid
    have hnew : (e.touch id parked).wakes[e.wakes.length]? = some ⟨id,parked,.running⟩ :=
      wakes_touch.mpr (.inr ⟨rfl,rfl⟩)
    rw [dormancy_of_life hlife,dormancy_of_life ((lives_touch id id parked).trans (if_pos rfl))]
    simp [ShapeLife.parked,hnew]
  · exact dormancy_wakes h ((lives_touch id id' parked).trans (if_neg hid))
      fun j w hw _ => wakes_touch.mpr (.inl hw)

lemma dormancy_setWake (h : e.LivesOk) {j : ℕ} {w : Wake} {phase : WakePhase}
    (hw : e.wakes[j]? = some w) {id : String} (hne : w.shape ≠ id) :
    (e.setWake j w phase).dormancy id = e.dormancy id := by
  refine dormancy_wakes h rfl fun i x hx hshape => ?_
  rw [wakes_setWake hw,if_neg ?_]
  · exact hx
  · rintro rfl
    rw [hw] at hx
    exact hne (Option.some.inj hx ▸ hshape)

/-- The end of a reactivation tells the catalog nothing. -/
lemma sameShape_settle (h : e.LivesOk) {j : ℕ} {w : Wake} {ok : Bool} {life : ShapeLife}
    (hw : e.wakes[j]? = some w) (hphase : w.phase = .running ∨ w.phase = .recorded)
    (hparked : ∀ wakes, life.parked wakes = if w.phase = .running then some w.parked else none)
    (id : String) : e.SameShape ((e.setWake j w (.over ok)).setLife w.shape life) id := by
  refine ⟨rfl,rfl,fun _ => rfl,?_⟩
  rw [dormancy_setLife]
  split_ifs with hid
  · subst hid
    rw [dormancy]
    change (e.lives.get? w.shape).bind _ = _
    cases hl : e.lives.get? w.shape with
    | none => rfl
    | some old =>
      obtain ⟨resume,rfl⟩ := (h.wakes j w hw).2 hphase old hl
      simp only [Option.bind_some,hparked]
      simp only [ShapeLife.parked,hw,Option.bind_some]
  · exact dormancy_setWake h hw hid

/-- The sequencer hands a shape back: it is parked, and the telling is left for later. -/
theorem Recorded.deactivated (h : Recorded base e) (hbase : e.Base) {id : String} (parked : Parked)
    (hlife : e.lives.get? id = some .deactivating) :
    Recorded base { e.setLife id (.dormant parked) with late := e.late ++ [.dormant id parked] } := by
  have hmem : ∀ l ∈ e.late, l ∈ e.late ++ [.dormant id parked] := fun l => List.mem_append_left _
  have hself : (e.setLife id (.dormant parked)).dormancy id = some parked := by
    rw [dormancy_setLife,if_pos rfl,hlife]
    rfl
  refine h.one id (fun id' hne => ⟨⟨rfl,rfl,fun _ => rfl,?_⟩,rfl⟩) le_rfl (fun l hl _ => hmem l hl)
    (fun _ hp => hp) ?_ fun l hl => ?_
  · exact (dormancy_setLife id id' _).trans (if_neg hne)
  · refine (h.agrees id).keep rfl (fun hr => hmem _ hr) fun rec r hm =>
      ⟨hm.record,hm.sig,fun x => (hm.subs x).mono rfl (fun hr => hmem _ hr) fun hp => hp,?_⟩
    exact .inr ⟨parked,hself,List.mem_append_right _ (.head _)⟩
  · rcases List.mem_append.mp hl with hold | hnew
    · refine .inl ⟨hold,?_⟩
      by_cases hid : id = l.shape
      · refine .inr ?_
        have hok := (h.late l hold).2
        cases l with
        | left id' x => exact hok
        | rolledBack id' b => exact hok
        | dormant id' parked' =>
          obtain rfl : id = id' := hid
          refine .inl (hok.resolve_right fun hd => ?_)
          rw [dormancy_of_life hlife] at hd
          cases hd
      · exact .inl hid
    · rw [List.mem_singleton.mp hnew]
      exact .inr ⟨(hbase.lives.lives id _ hlife).1,.inr hself⟩

/-- A replay has caught up: the `Reactivated` is queued, and then the life changes. -/
theorem Recorded.resumed (h : Recorded base e) (hbase : e.Base) {j : ℕ} {w : Wake}
    (hw : e.wakes[j]? = some w) (hphase : w.phase = .running)
    (hlate : ∀ parked, Late.dormant w.shape parked ∉ e.late) :
    Recorded base ((e.setWake j w .recorded).send (.reactivated w.shape) false) := by
  have hrecs : ∀ id, (((e.setWake j w .recorded).send (.reactivated w.shape) false).folded base).recs.get?
      id = if w.shape = id then ((e.folded base).recs.get? w.shape).map fun r =>
        { r with dormant := none }
      else (e.folded base).recs.get? id := fun id => by
    rw [folded_send]
    exact CatalogFold.recs_edit _ _ _ _
  have hself : (e.setWake j w .recorded).dormancy w.shape = none := by
    rw [dormancy]
    change (e.lives.get? w.shape).bind _ = none
    cases hl : e.lives.get? w.shape with
    | none => rfl
    | some old =>
      obtain ⟨resume,rfl⟩ := (hbase.lives.wakes j w hw).2 (.inl hphase) old hl
      simp [ShapeLife.parked,wakes_setWake hw]
  refine h.one w.shape (fun id hne => ⟨⟨rfl,rfl,fun _ => rfl,dormancy_setWake hbase.lives hw hne⟩,
    (hrecs id).trans (if_neg hne)⟩) le_rfl (fun _ hl _ => hl) (fun _ hp => hp) ?_ fun l hl => .inl ⟨hl,?_⟩
  · rw [hrecs,if_pos rfl]
    exact (h.agrees w.shape).change
      (f := (e.setWake j w .recorded).send (.reactivated w.shape) false) rfl _ (fun hr => hr) fun rec r hm =>
      ⟨hm.record,hm.sig,fun x => (hm.subs x).mono rfl (fun hr => hr) fun hp => hp,.inl hself.symm⟩
  · by_cases hid : w.shape = l.shape
    · refine .inr ?_
      have hok := (h.late l hl).2
      cases l with
      | left id x => exact hok
      | rolledBack id b => exact hok
      | dormant id parked => exact absurd (hid ▸ hl) (hlate parked)
    · exact .inl hid

/-- A create registers its shape and queues its `Created` in one critical section. -/
theorem Recorded.create (h : Recorded base e) (hbase : e.Base) {rec : ShapeRecord D}
    (hid : rec.id = shapeId e.st.nextShapeId) (sig sub : String) (now : ℕ) :
    Recorded base (e.create rec sig sub now now) := by
  have hnew : e.Unknown rec.id := hid ▸ hbase.unknown
  have hrecs : ∀ id, ((e.create rec sig sub now now).folded base).recs.get? id =
      if rec.id = id then some ⟨rec,some sig,AssocMap.empty.insert sub now,none⟩
      else (e.folded base).recs.get? id := fun id => by
    rw [Engine.create,folded_send]
    exact CatalogFold.recs_created _ _ _ _ _ _
  have hlives : ∀ id, (e.create rec sig sub now now).lives.get? id =
      if rec.id = id then some .active else e.lives.get? id :=
    fun id => AssocMap.get?_insert_eq e.lives rec.id id .active
  have hshapes : ∀ id, (e.create rec sig sub now now).st.shapes.get? id =
      if rec.id = id then some rec else e.st.shapes.get? id := fun id =>
    (congrArg (fun m : AssocMap String (ShapeRecord D) => m.get? id)
      EngineState.shapes_register).trans (AssocMap.get?_insert_eq e.st.shapes rec.id id rec)
  have hlease : ∀ id x, (e.create rec sig sub now now).st.lease id x =
      if rec.id = id ∧ sub = x then some now else e.st.lease id x := EngineState.lease_register hnew.sig
  refine h.one rec.id (fun id hne => ⟨⟨?_,?_,fun x => ?_,?_⟩,(hrecs id).trans (if_neg hne)⟩)
    ((Nat.le_succ _).trans_eq EngineState.nextShapeId_register.symm) (fun _ hl _ => hl)
    (fun _ hp => hp) ?_ fun l hl => .inl ⟨hl,.inl (hnew.other _ (h.late l hl).1)⟩
  · exact (hshapes id).trans (if_neg hne)
  · exact (EngineState.sigOf_register id).trans (if_neg hne)
  · exact (hlease id x).trans (if_neg fun hs => hne hs.1)
  · exact dormancy_congr ((hlives id).trans (if_neg hne)) rfl
  · rw [hrecs,if_pos rfl]
    unfold Agrees
    rw [hshapes,if_pos rfl]
    refine ⟨_,rfl,rfl,((EngineState.sigOf_register rec.id).trans (if_pos rfl)).symm,fun x => .inl ?_,
      .inl ?_⟩
    · rw [hlease,AssocMap.get?_insert]
      by_cases hx : sub = x
      · simp [hx]
      · have hnone : e.st.lease rec.id x = none := by
          by_contra hother
          exact EngineState.sigOf_of_lease hother hnew.sig
        simp [hx,hnone]
    · exact (dormancy_of_life ((hlives rec.id).trans (if_pos rfl))).symm

/-- The condition: a create reads the clock once, a claim that a sweep took back is claimed again only
after its `Left` was queued, and a shape that was parked is active again only after its `Dormant` was. -/
def Orderly (e : Engine D) : Action → Prop
  | .create logged now => logged = now
  | .join shape sub => Late.left shape sub ∉ e.late
  | .resumed j => ∀ w, e.wakes[j]? = some w → ∀ parked, Late.dormant w.shape parked ∉ e.late
  | _ => True

/-- The lives change and the catalog is not told. -/
lemma Recorded.relive (h : Recorded base e) (lives : AssocMap String ShapeLife) (wakes : List Wake)
    (hsame : ∀ id, e.SameShape { e with lives, wakes } id) : Recorded base { e with lives, wakes } :=
  h.same hsame le_rfl (fun _ => rfl) rfl rfl

/-- An event that is about no shape's record. -/
lemma Recorded.sendOther (h : Recorded base e) {ev : CatalogEvent D} (done : Bool)
    (hev : ∀ f : CatalogFold D, (f.apply ev).recs = f.recs) : Recorded base (e.send ev done) := by
  refine h.same (fun _ => ⟨rfl,rfl,fun _ => rfl,rfl⟩) le_rfl (fun id => ?_) rfl rfl
  rw [folded_send,hev]

/-- The memory never learns how large a backfill was. -/
lemma Recorded.backfillSized (h : Recorded base e) (id : String) (rows bytes : ℕ) (done : Bool) :
    Recorded base (e.send (.backfillSized id rows bytes) done) := by
  have hrecs : ∀ id', ((e.send (.backfillSized id rows bytes) done).folded base).recs.get? id' =
      if id = id' then ((e.folded base).recs.get? id).map fun r =>
        { r with record := { r.record with backfill := some (rows,bytes) } }
      else (e.folded base).recs.get? id' := fun id' => by
    rw [folded_send]
    exact CatalogFold.recs_edit _ _ _ _
  refine h.one id (fun id' hne => ⟨⟨rfl,rfl,fun _ => rfl,rfl⟩,(hrecs id').trans (if_neg hne)⟩) le_rfl
    (fun _ hl _ => hl) (fun _ hp => hp) ?_ fun l hl => .inl ⟨hl,.inr (h.late l hl).2⟩
  rw [hrecs,if_pos rfl]
  exact (h.agrees id).change (f := e.send (.backfillSized id rows bytes) done) rfl _ (fun hr => hr)
    fun rec r hm => ⟨hm.record,hm.sig,hm.subs,hm.dormant⟩

/-- One step under the condition keeps the fold and the memory together. -/
theorem recorded_step {a : Action} (h : Recorded base e) (hbase : e.Base) (hst : Step e a f)
    (horderly : e.Orderly a) : Recorded base f := by
  cases hst with
  | mint =>
    exact h.same (fun _ => ⟨rfl,rfl,fun _ => rfl,rfl⟩) (Nat.le_succ _) (fun _ => rfl) rfl rfl
  | create changesOnly isSubquery aggregate definition logged now hsig hfree =>
    obtain rfl : logged = now := horderly
    exact h.create hbase rfl _ _ _
  | join now hsig hrec hfree => exact h.join hbase now hsig horderly
  | shareReady hr hphase hready => exact h.requests _ _
  | lookActive hr hphase hlife => exact h.requests _ _
  | lookReactivating hr hphase hlife => exact h.requests _ _
  | lookDormant hr hphase hlife =>
    exact (h.relive _ _ (sameShape_touch hbase.lives hlife)).requests _ _
  | woken hr hphase hw hok => exact h.requests _ _
  | recheck hr hphase hshape => exact h.requests _ _
  | answer hr hphase =>
    exact h.same (fun _ => ⟨rfl,rfl,fun _ => rfl,rfl⟩) le_rfl (fun _ => rfl) rfl rfl
  | fail hr hphase houtcome =>
    exact h.same (fun _ => ⟨rfl,rfl,fun _ => rfl,rfl⟩) le_rfl (fun _ => rfl) rfl rfl
  | cancel hr hphase =>
    exact h.same (fun _ => ⟨rfl,rfl,fun _ => rfl,rfl⟩) le_rfl (fun _ => rfl) rfl rfl
  | abandon hr hphase => exact h.requests _ _
  | @undo k r hr hphase hjoin =>
    exact (h.requests (e.setPhase k r .over).requests e.promised).unsubscribe r.shape r.sub false false
  | undoCreate hr hphase hcreate => exact h.undoCreate hbase hr
  | finish hlate => exact h.finish hlate
  | backfillSized rows bytes hr hphase => exact h.backfillSized _ rows bytes true
  | release shape sub durable => exact (h.unsubscribe shape sub false durable).requests _ _
  | releaseAnonymous durable hvictim => exact (h.unsubscribe _ _ false durable).requests _ _
  | renewLocal shape sub now => exact h.renewLocal shape sub now
  | sweepLeases window now => exact h.sweepLeases hbase window now
  | purge id durable => exact h.retire id durable
  | evict hevict => exact h.retire _ false
  | deactivate hrec hpark hsubs hlife => exact h.relive _ e.wakes (sameShape_setLife hlife rfl)
  | deactivated parked hlife => exact h.deactivated hbase parked hlife
  | stayActive hlife => exact h.relive _ e.wakes (sameShape_setLife hlife rfl)
  | touch hlife => exact h.relive _ _ (sameShape_touch hbase.lives hlife)
  | resumed hw hphase => exact h.resumed hbase hw hphase (horderly _ hw)
  | wokeUp hw hphase =>
    exact h.relive _ _ (sameShape_settle hbase.lives hw (.inr hphase) fun _ => by
      rw [hphase]
      rfl)
  | stayDormant hw hphase =>
    exact h.relive _ _ (sameShape_settle hbase.lives hw (.inl hphase) fun _ => by
      rw [hphase]
      rfl)
  | sendOther done hev =>
    refine h.sendOther done fun f => ?_
    rcases hev with rfl | ⟨id,rfl⟩ <;> rfl
  | write hc hsent =>
    refine h.same (fun _ => ⟨rfl,rfl,fun _ => rfl,rfl⟩) le_rfl (fun id => ?_) rfl rfl
    simp only [folded,hsent.2]

lemma reachable_sendIf (h : e.catalog.Reachable) (b : Bool) (ev : CatalogEvent D) (done : Bool) :
    (e.sendIf b ev done).catalog.Reachable := by
  unfold sendIf
  split_ifs
  · exact h.send ev done
  · exact h

lemma reachable_step {a : Action} (h : e.catalog.Reachable) (hst : Step e a f) :
    f.catalog.Reachable := by
  cases hst with
  | create => exact h.send _ _
  | join => exact h.send _ _
  | undo => exact reachable_sendIf (by exact h) _ _ _
  | @finish l before after hlate =>
    cases l with
    | left shape sub => exact h.send _ _
    | rolledBack id existed => exact reachable_sendIf (by exact h) _ _ _
    | dormant id parked => exact h.send _ _
  | backfillSized => exact h.send _ _
  | release => exact reachable_sendIf (by exact h) _ _ _
  | releaseAnonymous => exact reachable_sendIf (by exact h) _ _ _
  | purge => exact reachable_sendIf (by exact h) _ _ _
  | evict => exact reachable_sendIf (by exact h) _ _ _
  | resumed => exact h.send _ _
  | sendOther => exact h.send _ _
  | write hc => exact h.tail hc
  | _ => exact h

/-- The fold of the log says what the memory does. Of a subscription that a poll renewed or put back it
may know less. -/
structure Remembered (e : Engine D) (fold : CatalogFold D) : Prop where
  shapes : ∀ id, fold.recs.get? id = none ↔ e.st.shapes.get? id = none
  shape : ∀ id rec r, e.st.shapes.get? id = some rec → fold.recs.get? id = some r →
    { r.record with backfill := rec.backfill } = rec ∧ r.sig = e.st.sigOf id ∧ r.dormant = e.dormancy id
  sub : ∀ id r x, fold.recs.get? id = some r →
    ((id,x) ∉ e.polled → r.subs.get? x = e.st.lease id x) ∧
    ∀ n, r.subs.get? x = some n → ∃ m ≥ n, e.st.lease id x = some m

/-- Where nothing is left to do late, the fold of all that was sent says what the memory does. -/
lemma Recorded.remembered (h : Recorded base e) (hlate : e.late = []) :
    e.Remembered (e.folded base) := by
  have hno : ∀ l, l ∉ e.late := fun l => by simp [hlate]
  have hsome : ∀ id r, (e.folded base).recs.get? id = some r →
      ∃ rec, e.st.shapes.get? id = some rec ∧ e.Matches rec id r := fun id r hr => by
    have hagree := h.agrees id
    unfold Agrees at hagree
    cases hshape : e.st.shapes.get? id with
    | none =>
      rw [hshape,hr] at hagree
      exact absurd (hagree.resolve_left (by simp)) (hno _)
    | some rec =>
      rw [hshape] at hagree
      obtain ⟨r',hr',hm⟩ := hagree
      rw [hr] at hr'
      exact ⟨rec,rfl,Option.some.inj hr' ▸ hm⟩
  refine ⟨fun id => ⟨fun hnone => ?_,fun hnone => ?_⟩,fun id rec r hshape hr => ?_,fun id r x hr => ?_⟩
  · have hagree := h.agrees id
    unfold Agrees at hagree
    cases hshape : e.st.shapes.get? id with
    | none => rfl
    | some rec =>
      rw [hshape] at hagree
      obtain ⟨r',hr',-⟩ := hagree
      rw [hnone] at hr'
      cases hr'
  · exact ((h.agrees id).gone hnone).resolve_right (hno _)
  · obtain ⟨rec',hrec',hm⟩ := hsome id r hr
    rw [hshape] at hrec'
    obtain rfl := Option.some.inj hrec'
    exact ⟨hm.record,hm.sig,hm.dormant.resolve_right fun ⟨_,_,hl⟩ => hno _ hl⟩
  · obtain ⟨_,_,hm⟩ := hsome id r hr
    rcases hm.subs x with heq | ⟨hl,-⟩ | ⟨hpolled,hold⟩
    · exact ⟨fun _ => heq,fun n hn => ⟨n,le_rfl,heq ▸ hn⟩⟩
    · exact absurd hl (hno _)
    · exact ⟨fun hp => absurd hpolled hp,hold⟩

def OrderlySteps : Engine D → Engine D → Prop :=
  Relation.ReflTransGen fun e f => ∃ a, Step e a f ∧ e.Orderly a

lemma recorded_of_orderly (h : e.Base) (hrec : Recorded base e) (hreach : e.catalog.Reachable)
    (hrun : OrderlySteps e f) : f.Base ∧ Recorded base f ∧ f.catalog.Reachable := by
  induction hrun with
  | refl => exact ⟨h,hrec,hreach⟩
  | tail _ hst ih =>
    obtain ⟨a,hst,horderly⟩ := hst
    obtain ⟨hbase,hrecorded,hreachable⟩ := ih
    exact ⟨base_step hbase hst,recorded_step hrecorded hbase hst horderly,reachable_step hreachable hst⟩

lemma Remembered.congr {fold fold' : CatalogFold D} (h : e.Remembered fold)
    (hrecs : fold'.recs = fold.recs) : e.Remembered fold' :=
  ⟨by rw [hrecs]; exact h.shapes,by rw [hrecs]; exact h.shape,by rw [hrecs]; exact h.sub⟩

/-- A boot has a shape as the memory had it, with the size of its backfill where the catalog has one. -/
structure RestoredAs (e : Engine D) (s : EngineState D × AssocMap String ShapeLife) (id : String)
    (rec : ShapeRecord D) : Prop where
  shape : ∃ backfill, s.1.shapes.get? id = some { rec with backfill }
  sig : s.1.sigOf id = e.st.sigOf id
  lease : ∀ x, (id,x) ∉ e.polled → s.1.lease id x = e.st.lease id x
  life : s.2.get? id = some ((e.dormancy id).elim .active .dormant)

lemma Remembered.restored {fold : CatalogFold D} (h : e.Remembered fold) {id : String}
    {rec : ShapeRecord D} {r : Restored D} {s : EngineState D × AssocMap String ShapeLife}
    (hshape : e.st.shapes.get? id = some rec) (hr : fold.recs.get? id = some r)
    (hs : CatalogFold.HasShape s id r) : e.RestoredAs s id rec := by
  obtain ⟨hrecord,hsig,hdormant⟩ := h.shape id rec r hshape hr
  refine ⟨⟨r.record.backfill,?_⟩,hs.sig.trans hsig,fun x hx => ?_,?_⟩
  · rw [hs.shape,← hrecord]
  · rw [hs.lease,hsig]
    cases hshared : e.st.sigOf id with
    | none =>
      by_contra hne
      exact EngineState.sigOf_of_lease (Ne.symm hne) hshared
    | some sig => exact (h.sub id r x hr).1 hx
  · rw [hs.life,CatalogFold.restoredLife,hdormant]
    cases e.dormancy id <;> rfl

/-- Once the writer's line is empty and no task has anything left to queue, the fold of the stored log
says what the memory does, and a boot on it restores each shape that it keeps as it was. -/
theorem fold_remembers (nonce : String) (h : e.Booted) (hrec : Recorded base e)
    (hreach : e.catalog.Reachable) (hnonce : ∀ n, (nonce,n) ∉ base.seen) (hrun : OrderlySteps e f)
    (hline : f.catalog.line = []) (hlate : f.late = []) :
    f.Remembered (base.foldLog nonce f.catalog.log) ∧
    ∀ retires id,
      (∀ rec, f.st.shapes.get? id = some rec → ∃ r,
        (base.foldLog nonce f.catalog.log).recs.get? id = some r ∧
        (CatalogFold.keeps retires r = true →
          f.RestoredAs ((base.foldLog nonce f.catalog.log).restore retires) id rec)) ∧
      (f.st.shapes.get? id = none →
        ((base.foldLog nonce f.catalog.log).restore retires).1.shapes.get? id = none) := by
  obtain ⟨-,hrecorded,hreachable⟩ := recorded_of_orderly (base_booted h) hrec hreach hrun
  have hnodup : (f.catalog.sent.map (·.seq)).Nodup :=
    (CatalogWriter.inv_of_reachable hreachable).nodup.sublist ((List.sublist_append_left _ _).map _)
  have hfold := CatalogFold.foldLog_repeats
    ((CatalogWriter.stored_of_reachable hreachable).repeats hline) hnodup hnonce
  have hremembered : f.Remembered (base.foldLog nonce f.catalog.log) :=
    (hrecorded.remembered hlate).congr (by rw [hfold]; rfl)
  refine ⟨hremembered,fun retires id => ⟨fun rec hshape => ?_,fun hnone => ?_⟩⟩
  · have hsome := mt (hremembered.shapes id).mp (by simp [hshape])
    obtain ⟨r,hr⟩ := Option.ne_none_iff_exists'.mp hsome
    exact ⟨r,hr,fun hkeep =>
      hremembered.restored hshape hr ((CatalogFold.restore_spec _ retires id).1 r hr hkeep)⟩
  · refine (CatalogFold.restore_spec _ retires id).2 fun r hr => ?_
    rw [(hremembered.shapes id).mpr hnone] at hr
    cases hr

end

section Sample

def quietRecord : ShapeRecord Unit := fresh.newRecord false false false ()

/-- The writer lands the head of its queue. -/
def landNext (e : Engine Unit) : Engine Unit :=
  match e.catalog.queue with
  | [] => e
  | m::q => { e with catalog := (((e.catalog.receive m q).land m).publish m).answer m }

lemma landNext_steps {e : Engine Unit} (hidle : e.catalog.writer = .idle) :
    OrderlySteps e (landNext e) := by
  unfold landNext
  cases hq : e.catalog.queue with
  | nil => exact .refl
  | cons m q =>
    exact .tail (.tail (.tail (.single ⟨_,.write e (.receive e.catalog hidle hq) ⟨rfl,rfl⟩,trivial⟩)
      ⟨_,.write _ (.land _ rfl) ⟨rfl,rfl⟩,trivial⟩) ⟨_,.write _ (.publish _ rfl) ⟨rfl,rfl⟩,trivial⟩)
      ⟨_,.write _ (.answer _ rfl) ⟨rfl,rfl⟩,trivial⟩

lemma fresh_recorded : Recorded (D := Unit) .default fresh :=
  ⟨fun _ => .inl rfl,fun _ h => nomatch h⟩

def quietCreated : Engine Unit := fresh.create quietRecord "sig" "a" 0 0

lemma quiet_created : OrderlySteps fresh quietCreated :=
  .single ⟨_,@Step.create _ fresh false false false () "sig" "a" 0 0 (fun _ _ => rfl)
    (by decide +kernel),rfl⟩

/-- The answer to the append is lost, and the writer stores the event again. -/
def landTwice (e : Engine Unit) : Engine Unit :=
  match e.catalog.queue with
  | [] => e
  | m::q => { e with catalog := ((((e.catalog.receive m q).answerLost m).land m).publish m).answer m }

lemma landTwice_steps {e : Engine Unit} (hidle : e.catalog.writer = .idle) :
    OrderlySteps e (landTwice e) := by
  unfold landTwice
  cases hq : e.catalog.queue with
  | nil => exact .refl
  | cons m q =>
    exact .tail (.tail (.tail (.tail (.single ⟨_,.write e (.receive e.catalog hidle hq) ⟨rfl,rfl⟩,trivial⟩)
      ⟨_,.write _ (.answerLost _ rfl) ⟨rfl,rfl⟩,trivial⟩) ⟨_,.write _ (.land _ rfl) ⟨rfl,rfl⟩,trivial⟩)
      ⟨_,.write _ (.publish _ rfl) ⟨rfl,rfl⟩,trivial⟩) ⟨_,.write _ (.answer _ rfl) ⟨rfl,rfl⟩,trivial⟩

/-- A second subscriber joins, the claim of the first one lapses, and the sweep tells the catalog. -/
def quietSwept : Engine Unit :=
  ((quietCreated.join quietRecord "s1" "sig" "b" 5).sweepLeases 6000 8).finish [] (.left "s1" "a")

lemma quiet_swept : OrderlySteps fresh quietSwept :=
  ((quiet_created.tail ⟨_,.join _ 5 (by decide +kernel) (by decide +kernel) (by decide +kernel),
    fun h => nomatch h⟩).tail ⟨_,.sweepLeases _ 6000 8,trivial⟩).tail
      ⟨_,@Step.finish _ _ (.left "s1" "a") [] [] rfl,trivial⟩

/-- The three events are stored, the second of them twice. -/
def quietStored : Engine Unit := landNext (landTwice (landNext quietSwept))

theorem quiet_fold_remembers : quietStored.catalog.log.length = 4 ∧
    ((CatalogFold.default.foldLog "n" quietStored.catalog.log).recs.get? "s1").bind (·.subs.get? "a") =
      quietStored.st.lease "s1" "a" ∧
    ((CatalogFold.default.foldLog "n" quietStored.catalog.log).recs.get? "s1").bind (·.subs.get? "b") =
      quietStored.st.lease "s1" "b" := by
  have hrun : OrderlySteps fresh quietStored :=
    ((quiet_swept.trans (landNext_steps rfl)).trans (landTwice_steps rfl)).trans (landNext_steps rfl)
  obtain ⟨hremembered,-⟩ := fold_remembers "n" fresh_booted fresh_recorded .refl
    (fun n => by simp [CatalogFold.default]) hrun rfl rfl
  obtain ⟨r,hr⟩ : ∃ r, (CatalogFold.default.foldLog "n" quietStored.catalog.log).recs.get? "s1" = some r :=
    Option.ne_none_iff_exists'.mp (Option.isSome_iff_ne_none.mp (by decide +kernel))
  rw [hr]
  exact ⟨rfl,(hremembered.sub "s1" r "a" hr).1 (by decide +kernel),
    (hremembered.sub "s1" r "b" hr).1 (by decide +kernel)⟩

/-- A claim lapses, is claimed again at once, and then the sweep tells the catalog. -/
def sampleForgotten : Engine Unit :=
  landNext (landNext (landNext (((quietCreated.sweepLeases 1000 10).join quietRecord "s1" "sig" "a"
    11).finish [] (.left "s1" "a"))))

/-- The catalog has forgotten a subscription that the memory holds. -/
theorem sample_fold_forgets : ∃ e : Engine Unit,
    Relation.ReflTransGen (fun e f => ∃ a, Step e a f) fresh e ∧ e.catalog.line = [] ∧ e.late = [] ∧
    ¬e.Remembered (CatalogFold.default.foldLog "n" e.catalog.log) := by
  have hmono : ∀ {e f : Engine Unit}, OrderlySteps e f →
      Relation.ReflTransGen (fun e f => ∃ a, Step e a f) e f := fun hrun =>
    Relation.ReflTransGen.mono (fun _ _ ⟨a,hst,_⟩ => ⟨a,hst⟩) _ _ hrun
  have hlapsed : Relation.ReflTransGen (fun e f => ∃ a, Step e a f) fresh
      ((quietCreated.sweepLeases 1000 10).join quietRecord "s1" "sig" "a" 11) :=
    ((hmono quiet_created).tail ⟨_,.sweepLeases _ 1000 10⟩).tail
      ⟨_,.join _ 11 (by decide +kernel) (by decide +kernel) (by decide +kernel)⟩
  have htold := hlapsed.tail ⟨_,@Step.finish _ _ (.left "s1" "a") [] [] rfl⟩
  refine ⟨sampleForgotten,htold.trans (hmono (((landNext_steps rfl).trans (landNext_steps rfl)).trans
    (landNext_steps rfl))),rfl,rfl,fun h => ?_⟩
  obtain ⟨r,hr⟩ : ∃ r, (CatalogFold.default.foldLog "n" sampleForgotten.catalog.log).recs.get?
      "s1" = some r := Option.ne_none_iff_exists'.mp (Option.isSome_iff_ne_none.mp (by decide +kernel))
  have hheld := (h.sub "s1" r "a" hr).1 (by decide +kernel)
  have hfold : ((CatalogFold.default.foldLog "n" sampleForgotten.catalog.log).recs.get? "s1").bind
      (·.subs.get? "a") = none := by decide +kernel
  rw [hr,Option.bind_some,hheld] at hfold
  exact absurd hfold (by decide +kernel)

end Sample
end Engine
end ElectricCircuits
