import ElectricCircuits.Lifecycle.Lives

/-! An acknowledged subscription is held. A guard gives back the claim of its own request, but a repeat
of the request with the same id relies on that claim and takes none of its own. -/
namespace ElectricCircuits

/-- The subscription is registered on a share of this signature. -/
def EngineState.Has {D : Type*} (st : EngineState D) (c : Claim) : Prop :=
  st.sigOf c.shape = some c.sig ∧ st.lease c.shape c.sub ≠ none

namespace EngineState
variable {D : Type*} {st : EngineState D} {c : Claim}

lemma Has.subscribe (h : st.Has c) (shape sub : String) (now : ℕ) :
    (st.subscribe shape sub now).1.Has c := by
  by_cases hshared : st.sigOf shape = none
  · rwa [subscribe_unshared hshared]
  · refine ⟨(sigOf_subscribe c.shape).trans h.1,?_⟩
    rw [lease_subscribe hshared]
    split_ifs
    · simp
    · exact h.2

lemma Has.unsubscribe (h : st.Has c) {shape sub : String} (hc : ¬(c.shape = shape ∧ c.sub = sub)) :
    (st.unsubscribe shape sub).1.Has c := by
  refine ⟨(sigOf_unsubscribe c.shape).trans h.1,?_⟩
  rw [lease_unsubscribe,if_neg fun hs => hc ⟨hs.1.symm,hs.2.symm⟩]
  exact h.2

lemma Has.unsubscribeAll (h : st.Has c) {expired : List (String × String)}
    (hc : (c.shape,c.sub) ∉ expired) : (st.unsubscribeAll expired).Has c := by
  refine ⟨(sigOf_unsubscribeAll c.shape).trans h.1,?_⟩
  rw [lease_unsubscribeAll,if_neg hc]
  exact h.2

lemma Has.retire (h : st.Has c) {id : String} (hc : c.shape ≠ id) : (st.retire id).Has c := by
  refine ⟨?_,?_⟩
  · rw [sigOf_retire,if_neg (Ne.symm hc)]
    exact h.1
  · rw [lease_retire,if_neg (Ne.symm hc)]
    exact h.2

lemma Has.register (h : st.Has c) {rec : ShapeRecord D} (hnew : st.sigOf rec.id = none)
    (sig sub : String) (now : ℕ) : (st.register rec sig sub now).Has c := by
  have hc : rec.id ≠ c.shape := fun heq => by
    rw [heq,h.1] at hnew
    cases hnew
  refine ⟨?_,?_⟩
  · rw [sigOf_register,if_neg hc]
    exact h.1
  · rw [lease_register hnew,if_neg fun hs => hc hs.1]
    exact h.2

/-- A shape with a registered subscription is not without subscribers. -/
lemma Has.refcount_ne_zero (h : st.Has c) : st.refcount c.shape ≠ 0 := by
  obtain ⟨share,hshare,-⟩ := exists_share h.1
  have hsub : share.subs.get? c.sub ≠ none := by
    have hlease := h.2
    rwa [lease,hshare] at hlease
  rw [refcount,hshare]
  intro hzero
  refine hsub ?_
  have hnil : share.subs.entries = [] := List.length_eq_zero_iff.mp hzero
  simp [AssocMap.get?,hnil]

end EngineState

namespace Request
variable {D : Type*}

def claim (r : Request) : Claim := ⟨r.shape,r.sub,r.sig⟩

/-- May the claim of the request still be acknowledged? A join of a create that has failed fails. -/
def Relies (r : Request) (e : Engine D) : Prop :=
  r.stands = true ∧ match r.phase with
    | .working | .waking _ | .closing | .checked => True
    | .awaiting => e.outcomes r.shape = some .pending ∨ e.outcomes r.shape = some .ready
    | _ => False

/-- What holds of a request in each phase. -/
def Ok (r : Request) (e : Engine D) : Prop :=
  match r.creates,r.phase with
  | true,.working | true,.checked => e.outcomes r.shape = some .pending ∧
      (r.stands = true → e.st.Has r.claim ∧ e.Settled r.shape)
  | true,.rollingBack | true,.detached =>
    e.outcomes r.shape ≠ some .pending ∧ e.outcomes r.shape ≠ some .ready
  | false,.awaiting => r.stands = true →
      e.outcomes r.shape = some .pending ∨ e.outcomes r.shape = some .ready → e.st.Has r.claim
  | false,.waking on => e.outcomes r.shape = some .ready ∧ (r.stands = true → e.st.Has r.claim) ∧
      ∀ j, on = some j → ∃ w, e.wakes[j]? = some w ∧ w.shape = r.shape ∧
        (r.stands = true → w.phase = .over true → e.Settled r.shape)
  | false,.closing | false,.checked => e.outcomes r.shape = some .ready ∧
      (r.stands = true → e.st.Has r.claim ∧ e.Settled r.shape)
  | false,.rollingBack | false,.detached => True
  | _,.answered | _,.over => True
  | _,_ => False

/-- The claim of a request that may be acknowledged is registered. -/
lemma Ok.has {r : Request} {e : Engine D} (h : r.Ok e) (hr : r.Relies e) : e.st.Has r.claim := by
  obtain ⟨hstands,hphase⟩ := hr
  unfold Ok at h
  cases hc : r.creates <;> cases hp : r.phase <;> simp only [hc,hp] at h hphase
  · exact h hstands hphase
  · exact h.2.1 hstands
  · exact (h.2 hstands).1
  · exact (h.2 hstands).1
  · exact (h.2 hstands).1
  · exact (h.2 hstands).1

lemma Ok.outcome {r : Request} {e : Engine D} (h : r.Ok e) (hr : r.Relies e) :
    e.outcomes r.shape = some .pending ∨ e.outcomes r.shape = some .ready := by
  obtain ⟨-,hphase⟩ := hr
  unfold Ok at h
  cases hc : r.creates <;> cases hp : r.phase <;> simp only [hc,hp] at h hphase
  · exact hphase
  · exact .inr h.1
  · exact .inr h.1
  · exact .inr h.1
  · exact .inl h.1
  · exact .inl h.1

lemma Ok.working {r : Request} {e : Engine D} (h : r.Ok e) (hc : r.creates = true)
    (hphase : r.unfinished = true) : r.phase = .working := by
  unfold Ok at h
  cases hp : r.phase <;> simp_all [unfinished]

/-- What the actions of others leave of it. The outcome of a share changes only while it is pending. -/
lemma Ok.frame {r : Request} {e f : Engine D} {b : Bool} (h : r.Ok e)
    (hb : b = true → r.stands = true)
    (hhas : b = true → r.Relies e → e.st.Has r.claim → f.st.Has r.claim)
    (hset : b = true → e.st.Has r.claim → e.Settled r.shape → f.Settled r.shape)
    (hout : f.outcomes r.shape = e.outcomes r.shape ∨
      e.outcomes r.shape = some .pending ∧ r.creates = false)
    (hwakes : ∀ (j : ℕ) w, e.wakes[j]? = some w → w.shape = r.shape → ∃ w', f.wakes[j]? = some w' ∧
      w'.shape = r.shape ∧ (w'.phase = .over true → w.phase = .over true ∨ f.Settled r.shape)) :
    Ok { r with stands := b } f := by
  unfold Ok at h ⊢
  have hkeep : e.outcomes r.shape = some .ready → f.outcomes r.shape = some .ready := fun hready => by
    rcases hout with hsame | hpending
    · rw [hsame,hready]
    · rw [hready] at hpending
      cases hpending.1
  have hcreator : r.creates = true → f.outcomes r.shape = e.outcomes r.shape := fun hc => by
    rcases hout with hsame | hpending
    · exact hsame
    · rw [hc] at hpending
      cases hpending.2
  have hboth : (r.stands = true → r.Relies e) →
      (r.stands = true → e.st.Has r.claim ∧ e.Settled r.shape) → b = true →
      f.st.Has r.claim ∧ f.Settled r.shape := fun hrelies hold hbt => by
    obtain ⟨hold,hsettled⟩ := hold (hb hbt)
    exact ⟨hhas hbt (hrelies (hb hbt)) hold,hset hbt hold hsettled⟩
  cases hc : r.creates <;> cases hp : r.phase <;> simp only [hc,hp] at h ⊢
  · -- a waiting join
    intro hbt ho
    have hbefore : e.outcomes r.shape = some .pending ∨ e.outcomes r.shape = some .ready := by
      rcases hout with hsame | hpending
      · rwa [← hsame]
      · exact .inl hpending.1
    exact hhas hbt ⟨hb hbt,by simpa [hp] using hbefore⟩ (h (hb hbt) hbefore)
  · obtain ⟨hready,hheld,hon⟩ := h
    have hrelies : b = true → r.Relies e := fun hbt => ⟨hb hbt,by simp [hp]⟩
    refine ⟨hkeep hready,fun hbt => hhas hbt (hrelies hbt) (hheld (hb hbt)),fun j hj => ?_⟩
    obtain ⟨w,hw,hshape,hwoken⟩ := hon j hj
    obtain ⟨w',hw',hshape',hover⟩ := hwakes j w hw hshape
    refine ⟨w',hw',hshape',fun hbt hphase => ?_⟩
    rcases hover hphase with hbefore | hsettled
    · exact hset hbt (hheld (hb hbt)) (hwoken (hb hbt) hbefore)
    · exact hsettled
  · exact ⟨hkeep h.1,hboth (fun hstands => ⟨hstands,by simp [hp]⟩) h.2⟩
  · exact ⟨hkeep h.1,hboth (fun hstands => ⟨hstands,by simp [hp]⟩) h.2⟩
  · exact ⟨(hcreator hc).trans h.1,hboth (fun hstands => ⟨hstands,by simp [hp]⟩) h.2⟩
  · exact ⟨(hcreator hc).trans h.1,hboth (fun hstands => ⟨hstands,by simp [hp]⟩) h.2⟩
  · rwa [hcreator hc]
  · rwa [hcreator hc]

end Request

namespace Engine
variable {D : Type*}

/-- An acknowledged claim that stands is registered, on a shape that is ready and not dormant. -/
def Kept (e : Engine D) (c : Claim) : Prop :=
  e.st.Has c ∧ e.outcomes c.shape = some .ready ∧ e.Settled c.shape

/-- What the condition keeps, over what holds at any time. -/
structure Held (e : Engine D) : Prop where
  related : e.st.Related
  requests : ∀ (k : ℕ) r, e.requests[k]? = some r → r.Ok e
  promised : ∀ c ∈ e.promised, e.Kept c

section
variable {e f : Engine D}

/-- The tables change and claims end. What stands and may be acknowledged stays registered. -/
theorem Held.tables (h : e.Held) (ends : String → String → Bool) (hrelated : f.st.Related)
    (hlives : ∀ id, f.lives.get? id = e.lives.get? id ∨ f.lives.get? id = none)
    (hwakes : f.wakes = e.wakes) (hout : f.outcomes = e.outcomes)
    (hreq : ∀ (k : ℕ) r, f.requests[k]? = some r → ∃ r₀ b, e.requests[k]? = some r₀ ∧
      r = { r₀ with stands := b } ∧ (b = true → r₀.stands = true ∧ ends r₀.shape r₀.sub = false))
    (hpromised : ∀ c ∈ f.promised, c ∈ e.promised ∧ ends c.shape c.sub = false)
    (hhas : ∀ c, ends c.shape c.sub = false →
      (c ∈ e.promised ∨ ∃ (k : ℕ) (r : Request), e.requests[k]? = some r ∧ r.Relies e ∧ r.claim = c) →
      e.st.Has c → f.st.Has c) : f.Held := by
  refine ⟨hrelated,fun k r hr => ?_,fun c hc => ?_⟩
  · obtain ⟨r₀,b,hr₀,rfl,hb⟩ := hreq k r hr
    refine (h.requests k r₀ hr₀).frame (fun hbt => (hb hbt).1) (fun hbt hrelies => ?_)
      (fun _ _ hsettled => hsettled.frame (hlives _)) (.inl (by rw [hout])) fun j w hw hshape => ?_
    · exact hhas r₀.claim (hb hbt).2 (.inr ⟨k,r₀,hr₀,hrelies,rfl⟩)
    · exact ⟨w,by rwa [hwakes],hshape,.inl⟩
  · obtain ⟨hmem,hends⟩ := hpromised c hc
    obtain ⟨hheld,hready,hsettled⟩ := h.promised c hmem
    exact ⟨hhas c hends (.inl hmem) hheld,by rwa [hout],hsettled.frame (hlives _)⟩

/-- A request goes on. -/
theorem Held.setPhase (h : e.Held) {k : ℕ} {r : Request} {phase : RequestPhase}
    (hok : Request.Ok { r with phase } e) : (e.setPhase k r phase).Held := by
  refine ⟨h.related,fun i x hx => ?_,h.promised⟩
  rcases getElem?_setPhase hx with ⟨rfl,rfl⟩ | ⟨-,hold⟩
  · exact hok
  · exact h.requests i x hold

/-- The catalog, the late sends and the list of polls do not matter here. -/
lemma Held.bookkeep (h : e.Held) (late : List Late) (catalog : CatalogWriter (CatalogEvent D))
    (polled : List (String × String)) : Held { e with late, catalog, polled } :=
  ⟨h.related,h.requests,h.promised⟩

lemma Held.send (h : e.Held) (ev : CatalogEvent D) (done : Bool) : (e.send ev done).Held :=
  h.bookkeep e.late (e.catalog.send ev done) e.polled

lemma Held.promise (h : e.Held) {c : Claim} (hc : e.Kept c) :
    Held { e with promised := e.promised ++ [c] } := by
  refine ⟨h.related,h.requests,fun c' hc' => ?_⟩
  rcases List.mem_append.mp hc' with hold | hnew
  · exact h.promised c' hold
  · rw [List.mem_singleton.mp hnew]
    exact hc

/-- A creator tells its joiners how it went. -/
theorem Held.tell (h : e.Held) (hbase : e.Base) {k : ℕ} {r : Request} (hr : e.requests[k]? = some r)
    (hc : r.creates = true) (hpending : e.outcomes r.shape = some .pending) {phase : RequestPhase}
    {outcome : Option ShareOutcome}
    (hok : ∀ f : Engine D, f.outcomes r.shape = outcome → Request.Ok { r with phase } f) :
    Held { e.setPhase k r phase with outcomes := Function.update e.outcomes r.shape outcome } := by
  have hother : ∀ id, id ≠ r.shape →
      Function.update e.outcomes r.shape outcome id = e.outcomes id :=
    fun id hid => Function.update_of_ne hid _ _
  refine ⟨h.related,fun i x hx => ?_,fun c hcmem => ?_⟩
  · rcases getElem?_setPhase hx with ⟨rfl,rfl⟩ | ⟨hik,hold⟩
    · exact hok _ (Function.update_self _ _ _)
    · refine (h.requests i x hold).frame (b := x.stands) id (fun _ _ => id) (fun _ _ => id) ?_
        fun j w hw hshape => ⟨w,hw,hshape,.inl⟩
      by_cases hshape : x.shape = r.shape
      · refine .inr ⟨hshape ▸ hpending,?_⟩
        by_contra hcx
        exact hik (hbase.creators i k x r hold hr (by simpa using hcx) hc hshape)
      · exact .inl (hother _ hshape)
  · obtain ⟨hheld,hready,hsettled⟩ := h.promised c hcmem
    refine ⟨hheld,?_,hsettled⟩
    rwa [← hother c.shape fun heq => by rw [heq,hpending] at hready; cases hready] at hready

theorem Held.fail (h : e.Held) (hbase : e.Base) {k : ℕ} {r : Request} (hr : e.requests[k]? = some r)
    (hphase : r.unfinished = true) {outcome : ShareOutcome}
    (houtcome : outcome ≠ .pending ∧ outcome ≠ .ready) : (e.fail k r outcome).Held := by
  have hok : r.Ok e := h.requests k r hr
  unfold Engine.fail Request.armed
  cases hc : r.creates
  · refine h.setPhase ?_
    cases r.fresh <;> simp [Request.Ok,hc]
  · have hworking := hok.working hc hphase
    simp only [Request.Ok,hc,hworking] at hok
    refine h.tell hbase hr hc hok.1 fun f hf => ?_
    simp [Request.Ok,hc,hf,houtcome.1,houtcome.2]

theorem Held.cancel (h : e.Held) (hbase : e.Base) {k : ℕ} {r : Request} (hr : e.requests[k]? = some r)
    (hphase : r.unfinished = true) : (e.cancel k r).Held := by
  have hok : r.Ok e := h.requests k r hr
  unfold Engine.cancel Request.armed
  cases hc : r.creates
  · refine h.setPhase ?_
    cases r.fresh <;> simp [Request.Ok,hc]
  · have hworking := hok.working hc hphase
    simp only [Request.Ok,hc,hworking] at hok
    refine h.tell hbase hr hc hok.1 fun f hf => ?_
    simp [Request.Ok,hc,hf]

/-- A success is told only when its claim, if it stands, is registered. -/
theorem Held.answer (h : e.Held) (hbase : e.Base) {k : ℕ} {r : Request} (hr : e.requests[k]? = some r)
    (hphase : r.phase = .checked) : (e.answer k r).Held := by
  have hok : r.Ok e := h.requests k r hr
  have hover : ∀ f : Engine D, Request.Ok { r with phase := .answered } f := fun f => by
    cases r.creates <;> simp [Request.Ok]
  unfold Engine.answer
  cases hc : r.creates <;> simp only [Request.Ok,hc,hphase] at hok
  · have hset := h.setPhase (k := k) (hover e)
    cases hstands : r.stands
    · exact hset
    · exact hset.promise (c := r.claim) ⟨(hok.2 hstands).1,hok.1,(hok.2 hstands).2⟩
  · have htell := h.tell hbase hr hc hok.1
      fun (f : Engine D) (_ : f.outcomes r.shape = some .ready) => hover f
    cases hstands : r.stands
    · exact htell
    · exact htell.promise (c := r.claim)
        ⟨(hok.2 hstands).1,Function.update_self _ _ _,(hok.2 hstands).2⟩

/-- The condition: a guard gives an id back only while no other claim on it, acknowledged or still to
be acknowledged, relies on the subscription, and a poll renews only an id that no other shape holds. -/
def Allowed (e : Engine D) : Action → Prop
  | .undo k => ∀ r, e.requests[k]? = some r →
    (∀ c ∈ e.promised, ¬(c.shape = r.shape ∧ c.sub = r.sub)) ∧
    ∀ (j : ℕ) r', j ≠ k → e.requests[j]? = some r' → r'.Relies e →
      ¬(r'.shape = r.shape ∧ r'.sub = r.sub)
  | .renewLocal shape sub => e.st.subscriptionFree sub shape = true
  | _ => True

lemma requests_endClaims {ends : String → String → Bool} {k : ℕ} {r : Request}
    (hr : (e.endClaims ends).requests[k]? = some r) :
    ∃ r₀ b, e.requests[k]? = some r₀ ∧ r = { r₀ with stands := b } ∧
      (b = true → r₀.stands = true ∧ ends r₀.shape r₀.sub = false) := by
  simp only [endClaims,List.getElem?_map,Option.map_eq_some_iff] at hr
  obtain ⟨r₀,hr₀,rfl⟩ := hr
  exact ⟨r₀,_,hr₀,rfl,by simp⟩

lemma requests_same {k : ℕ} {r : Request} (hr : e.requests[k]? = some r) :
    ∃ r₀ b, e.requests[k]? = some r₀ ∧ r = { r₀ with stands := b } ∧
      (b = true → r₀.stands = true ∧ (fun _ _ => false : String → String → Bool) r₀.shape r₀.sub = false) :=
  ⟨r,r.stands,hr,rfl,fun h => ⟨h,rfl⟩⟩

theorem Held.undo (h : e.Held) {k : ℕ} {r : Request} (hr : e.requests[k]? = some r)
    (hallowed : e.Allowed (.undo k)) : (e.undo k r).Held := by
  have hover : Request.Ok { r with phase := .over } e := by cases r.creates <;> simp [Request.Ok]
  have hset := h.setPhase (k := k) hover
  obtain ⟨hpromised,hothers⟩ := hallowed r hr
  obtain ⟨c,hsend⟩ := exists_sendIf
    { e.setPhase k r .over with st := (e.st.unsubscribe r.shape r.sub).1 }
    (e.st.unsubscribe r.shape r.sub).2 (.left r.shape r.sub false) false
  rw [Engine.undo,hsend]
  refine hset.tables (fun _ _ => false) h.related.unsubscribe (fun _ => .inl rfl) rfl rfl
    (fun _ _ => requests_same) (fun _ hc => ⟨hc,rfl⟩) fun c _ hc hheld => ?_
  refine EngineState.Has.unsubscribe hheld fun hsame => ?_
  rcases hc with hc | ⟨i,x,hx,hrelies,rfl⟩
  · exact hpromised c hc hsame
  · rcases getElem?_setPhase hx with ⟨rfl,rfl⟩ | ⟨hik,hold⟩
    · exact hrelies.2.elim
    · exact hothers i x hik hold hrelies hsame

theorem Held.undoCreate (h : e.Held) {k : ℕ} {r : Request} (hr : e.requests[k]? = some r)
    (hphase : r.undoing = true) (hc : r.creates = true) : (e.undoCreate k r).Held := by
  have hok : r.Ok e := h.requests k r hr
  have hover : Request.Ok { r with phase := .over } e := by cases r.creates <;> simp [Request.Ok]
  have hset := h.setPhase (k := k) hover
  have hout : e.outcomes r.shape ≠ some .pending ∧ e.outcomes r.shape ≠ some .ready := by
    rw [Request.undoing,Bool.or_eq_true,decide_eq_true_iff,decide_eq_true_iff] at hphase
    rcases hphase with hp | hp <;> simpa only [Request.Ok,hc,hp] using hok
  rw [Engine.undoCreate,EngineState.rollbackCreate_eq h.related.toSigned]
  refine hset.tables (fun _ _ => false) (h.related.retire r.shape) (fun _ => .inl rfl) rfl rfl
    (fun _ _ => requests_same) (fun _ hc => ⟨hc,rfl⟩) fun c _ hc hheld => ?_
  refine EngineState.Has.retire hheld fun hsame => ?_
  rcases hc with hc | ⟨i,x,hx,hrelies,rfl⟩
  · exact hout.2 (hsame ▸ (h.promised c hc).2.1)
  · have hx' : x.Ok (e.setPhase k r .over) := hset.requests i x hx
    rcases hx'.outcome hrelies with ho | ho
    · exact hout.1 (hsame ▸ ho)
    · exact hout.2 (hsame ▸ ho)

lemma mem_promised_endClaims {ends : String → String → Bool} {c : Claim}
    (hc : c ∈ (e.endClaims ends).promised) : c ∈ e.promised ∧ ends c.shape c.sub = false := by
  simpa [endClaims] using hc

theorem Held.release (h : e.Held) (shape sub : String) (durable : Bool) :
    (e.release shape sub durable).Held := by
  obtain ⟨c,hsend⟩ := exists_sendIf { e with st := (e.st.unsubscribe shape sub).1 }
    (e.st.unsubscribe shape sub).2 (.left shape sub false) durable
  rw [Engine.release,hsend]
  refine h.tables (fun id x => id == shape && x == sub) h.related.unsubscribe
    (fun _ => .inl rfl) rfl rfl (fun _ _ => requests_endClaims) (fun _ => mem_promised_endClaims)
    fun c hc _ hheld => ?_
  exact EngineState.Has.unsubscribe hheld (by simpa using hc)

theorem Held.sweepLeases (h : e.Held) (window now : ℕ) : (e.sweepLeases window now).Held := by
  refine h.tables (fun id x => (id,x) ∈ e.st.lapsedSubscriptions window now) h.related.unsubscribeAll
    (fun _ => .inl rfl) rfl rfl (fun _ _ => requests_endClaims) (fun _ => mem_promised_endClaims)
    fun c hc _ hheld => ?_
  exact EngineState.Has.unsubscribeAll hheld (by simpa using hc)

theorem Held.retire (h : e.Held) (id : String) (durable : Bool) : (e.retire id durable).Held := by
  obtain ⟨c,hsend⟩ := exists_sendIf { e with st := e.st.retire id, lives := e.lives.erase id }
    (e.st.shapes.get? id).isSome (.dropped id) durable
  rw [Engine.retire,hsend]
  refine h.tables (fun id' _ => id' == id) (h.related.retire id) (erase_lives id) rfl rfl
    (fun _ _ => requests_endClaims) (fun _ => mem_promised_endClaims) fun c hc _ hheld => ?_
  exact EngineState.Has.retire hheld (by simpa using hc)

/-- A claim that is taken or renewed. -/
lemma Held.subscribe (h : e.Held) {shape sub : String} (now : ℕ)
    (hfree : e.st.subscriptionFree sub shape = true) :
    Held { e with st := (e.st.subscribe shape sub now).1 } := by
  exact h.tables (fun _ _ => false) (h.related.subscribe hfree) (fun _ => .inl rfl) rfl rfl
    (fun _ _ => requests_same) (fun _ hc => ⟨hc,rfl⟩) fun c _ _ hheld => hheld.subscribe shape sub now

theorem Held.finish (h : e.Held) (rest : List Late) (l : Late) : (e.finish rest l).Held := by
  cases l with
  | left shape sub => exact h.bookkeep _ _ _
  | dormant id parked => exact h.bookkeep _ _ _
  | rolledBack id existed =>
    obtain ⟨c,hsend⟩ := exists_sendIf { e with late := rest, lives := e.lives.erase id } existed
      (.dropped id) false
    rw [Engine.finish,hsend]
    exact h.tables (fun _ _ => false) h.related (erase_lives id) rfl rfl (fun _ _ => requests_same)
      (fun _ hc => ⟨hc,rfl⟩) fun c _ _ hheld => hheld

theorem Held.mint (h : e.Held) :
    Held { e with st := { e.st with nextShapeId := e.st.nextShapeId+1 } } :=
  h.tables (fun _ _ => false) ⟨⟨h.related.signed,h.related.live⟩,h.related.owner⟩ (fun _ => .inl rfl)
    rfl rfl (fun _ _ => requests_same) (fun _ hc => ⟨hc,rfl⟩) fun _ _ _ hheld => hheld

/-- A new request. -/
theorem Held.addRequest (h : e.Held) {r : Request} (hok : r.Ok e) :
    Held { e with requests := e.requests ++ [r] } := by
  refine ⟨h.related,fun i x hx => ?_,h.promised⟩
  rcases requests_append hx with hold | ⟨-,rfl⟩
  · exact h.requests i x hold
  · exact hok

theorem Held.join (h : e.Held) {sig sub id : String} {rec : ShapeRecord D} (now : ℕ)
    (hsig : e.st.feedBySig.get? sig = some id) (hfree : e.st.subscriptionFree sub id = true) :
    (e.join rec id sig sub now).Held := by
  have hshared : e.st.sigOf id = some sig := (h.related.signed id sig).mp hsig
  refine Held.send ((h.subscribe now hfree).addRequest ?_) _ _
  intro _ _
  refine ⟨(EngineState.sigOf_subscribe id).trans hshared,?_⟩
  rw [EngineState.lease_subscribe (by simp [hshared])]
  simp [Request.claim]

/-- Nobody holds an id that a create may take. -/
lemma Held.no_sub (h : e.Held) (hbase : e.Base) {sub : String}
    (hfree : e.st.subscriptionFree sub "" = true) : e.st.subsById.get? sub = none := by
  by_contra howned
  obtain ⟨owner,howner⟩ := Option.ne_none_iff_exists'.mp howned
  have hempty := EngineState.subscriptionFree_iff.mp hfree owner howner
  have hlease := (h.related.owner owner sub).mp howner
  obtain ⟨n,-,hn⟩ := hbase.minted owner (h.related.live owner (EngineState.sigOf_of_lease hlease))
  have htext := congrArg String.toList (hempty.symm.trans hn)
  simp [shapeId] at htext

theorem Held.create (h : e.Held) (hbase : e.Base) {rec : ShapeRecord D}
    (hid : rec.id = shapeId e.st.nextShapeId) {sig sub : String} (logged now : ℕ)
    (hsig : ∀ id, e.st.feedBySig.get? sig = some id → e.st.shapes.get? id = none)
    (hfree : e.st.subscriptionFree sub "" = true) : (e.create rec sig sub logged now).Held := by
  have hnew : e.Unknown rec.id := hid ▸ hbase.unknown
  have hlives : ∀ id, rec.id ≠ id → (e.lives.insert rec.id .active).get? id = e.lives.get? id :=
    fun id hne => by rw [AssocMap.get?_insert]; simp [hne]
  have hregistered : Held { e with
      st := e.st.register rec sig sub now
      lives := e.lives.insert rec.id .active
      outcomes := Function.update e.outcomes rec.id (some .pending) } := by
    refine ⟨h.related.register hnew.sig (h.no_sub hbase hfree) (hbase.no_feed hsig),fun k r hr => ?_,
      fun c hc => ?_⟩
    · have hne := hnew.other _ (hbase.requests k r hr).1
      refine (h.requests k r hr).frame (b := r.stands) id
        (fun _ _ hheld => hheld.register hnew.sig sig sub now) (fun _ _ hsettled => ?_)
        (.inl (Function.update_of_ne (Ne.symm hne) _ _)) fun j w hw hshape => ⟨w,hw,hshape,.inl⟩
      rwa [Settled,hlives _ hne]
    · obtain ⟨hheld,hready,hsettled⟩ := h.promised c hc
      have hne : rec.id ≠ c.shape := fun heq => by
        have hnosig := hnew.sig
        rw [heq,hheld.1] at hnosig
        cases hnosig
      refine ⟨hheld.register hnew.sig sig sub now,?_,?_⟩
      · exact (Function.update_of_ne (Ne.symm hne) _ _).trans hready
      · rwa [Settled,hlives _ hne]
  refine Held.send (hregistered.addRequest ?_) _ _
  refine ⟨Function.update_self _ _ _,fun _ => ⟨⟨?_,?_⟩,.inr (AssocMap.get?_insert_self _ _ _)⟩⟩
  · simp [Request.claim,EngineState.sigOf_register]
  · simp [Request.claim,EngineState.lease_register hnew.sig]

/-- Lives change; a shape with subscriptions that was settled stays so. -/
theorem Held.relive (h : e.Held) (lives : AssocMap String ShapeLife) (wakes : List Wake)
    (hset : ∀ c, e.st.Has c → e.Settled c.shape → Settled { e with lives, wakes } c.shape)
    (hwakes : ∀ (j : ℕ) w, e.wakes[j]? = some w → ∃ w', wakes[j]? = some w' ∧ w'.shape = w.shape ∧
      (w'.phase = .over true → w.phase = .over true ∨ Settled { e with lives, wakes } w.shape)) :
    Held { e with lives, wakes } := by
  refine ⟨h.related,fun k r hr => ?_,fun c hc => ?_⟩
  · refine (h.requests k r hr).frame (b := r.stands) id (fun _ _ hheld => hheld)
      (fun _ hheld => hset r.claim hheld) (.inl rfl) fun j w hw hshape => ?_
    obtain ⟨w',hw',hshape',hover⟩ := hwakes j w hw
    exact ⟨w',hw',hshape'.trans hshape,hshape ▸ hover⟩
  · obtain ⟨hheld,hready,hsettled⟩ := h.promised c hc
    exact ⟨hheld,hready,hset c hheld hsettled⟩

theorem Held.deactivate (h : e.Held) {id : String} (hsubs : e.st.refcount id = 0) :
    (e.setLife id .deactivating).Held := by
  refine h.relive _ e.wakes (fun c hc hsettled => ?_) fun j w hw => ⟨w,hw,rfl,.inl⟩
  exact hsettled.setLife fun heq => absurd (heq ▸ hsubs) hc.refcount_ne_zero

theorem Held.leaveDeactivating (h : e.Held) {id : String} (life : ShapeLife)
    (hlife : e.lives.get? id = some .deactivating) : (e.setLife id life).Held := by
  refine h.relive _ e.wakes (fun c hc hsettled => ?_) fun j w hw => ⟨w,hw,rfl,.inl⟩
  exact hsettled.setLife fun heq => by cases (heq ▸ hsettled).of_some hlife

theorem Held.touch (h : e.Held) {id : String} {parked : Parked}
    (hlife : e.lives.get? id = some (.dormant parked)) : (e.touch id parked).Held :=
  h.relive _ _ (fun _ _ hsettled => hsettled.touch hlife) fun _ w hw =>
    ⟨w,wakes_touch.mpr (.inl hw),rfl,.inl⟩

/-- A reactivation is over, and the life of its shape with it. -/
theorem Held.settle (h : e.Held) (hbase : e.Base) {j : ℕ} {w : Wake} {ok : Bool} {life : ShapeLife}
    (hw : e.wakes[j]? = some w) (hphase : w.phase = .running ∨ w.phase = .recorded)
    (hactive : ok = true → life = .active) :
    ((e.setWake j w (.over ok)).setLife w.shape life).Held := by
  refine h.relive _ _ (fun c _ hsettled => hsettled.settle hbase.lives hw hphase) fun i x hx => ?_
  obtain ⟨y,hy,hshape,hcase⟩ := exists_setWake (.over ok) hw hx
  refine ⟨y,hy,hshape,fun hok => ?_⟩
  rcases hcase with ⟨-,rfl,hp⟩ | ⟨-,rfl⟩
  · rw [hp] at hok
    refine .inr ?_
    change ((e.setWake j x (.over ok)).setLife x.shape life).Settled x.shape
    rw [Settled,lives_setLife,if_pos rfl,hactive (by simpa using hok)]
    cases (e.setWake j x (.over ok)).lives.get? x.shape <;> simp
  · exact .inl hok

theorem Held.record (h : e.Held) {j : ℕ} {w : Wake} (hw : e.wakes[j]? = some w) :
    (e.setWake j w .recorded).Held := by
  refine h.relive e.lives _ (fun _ _ hs => hs) fun i x hx => ?_
  obtain ⟨y,hy,hshape,hcase⟩ := exists_setWake .recorded hw hx
  refine ⟨y,hy,hshape,fun hok => ?_⟩
  rcases hcase with ⟨-,-,hp⟩ | ⟨-,rfl⟩
  · rw [hp] at hok
    cases hok
  · exact .inl hok

/-- An aggregate never goes dormant. -/
lemma Held.aggregate_settled (h : e.Held) (hbase : e.Base) {k : ℕ} {r : Request}
    (hr : e.requests[k]? = some r) (hagg : r.aggregate = true) (hheld : e.st.Has r.claim) :
    e.Settled r.shape := by
  have hshared : e.st.sigOf r.shape ≠ none := Option.ne_none_iff_exists'.mpr ⟨_,hheld.1⟩
  obtain ⟨rec,hrec⟩ := Option.ne_none_iff_exists'.mp (h.related.live r.shape hshared)
  exact hbase.lives.steady r.shape rec hrec (((hbase.requests k r hr).2 rec hrec).trans hagg)

theorem Held.shareReady (h : e.Held) (hbase : e.Base) {k : ℕ} {r : Request}
    (hr : e.requests[k]? = some r) (hphase : r.phase = .awaiting)
    (hready : e.outcomes r.shape = some .ready) :
    (e.setPhase k r (if r.aggregate then .closing else .waking none)).Held := by
  have hok : r.Ok e := h.requests k r hr
  refine h.setPhase ?_
  cases hc : r.creates <;> simp only [Request.Ok,hc,hphase] at hok
  have hheld : r.stands = true → e.st.Has r.claim := fun hs => hok hs (.inr hready)
  cases hagg : r.aggregate
  · simp only [Request.Ok,Bool.false_eq_true,if_false]
    exact ⟨hready,hheld,by simp⟩
  · simp only [Request.Ok,if_true]
    exact ⟨hready,fun hs => ⟨hheld hs,h.aggregate_settled hbase hr hagg (hheld hs)⟩⟩

/-- What a join that waits for its shape knows. -/
lemma Request.Ok.waking {r : Request} {on : Option ℕ} (h : r.Ok e) (hphase : r.phase = .waking on) :
    r.creates = false ∧ e.outcomes r.shape = some .ready ∧ (r.stands = true → e.st.Has r.claim) ∧
      ∀ j, on = some j → ∃ w, e.wakes[j]? = some w ∧ w.shape = r.shape ∧
        (r.stands = true → w.phase = .over true → e.Settled r.shape) := by
  unfold Request.Ok at h
  cases hc : r.creates <;> simp only [hc,hphase] at h
  exact ⟨rfl,h⟩

theorem Held.lookDormant (h : e.Held) {k : ℕ} {r : Request} {parked : Parked}
    (hr : e.requests[k]? = some r) (hphase : r.phase = .waking none)
    (hlife : e.lives.get? r.shape = some (.dormant parked)) :
    ((e.touch r.shape parked).setPhase k r (.waking (some e.wakes.length))).Held := by
  obtain ⟨hjoin,hready,hheld,-⟩ := Request.Ok.waking (h.requests k r hr) hphase
  refine (h.touch hlife).setPhase ?_
  simp only [Request.Ok,hjoin]
  refine ⟨hready,hheld,fun j hj => ⟨⟨r.shape,parked,.running⟩,?_,rfl,fun _ hover => ?_⟩⟩
  · exact wakes_touch.mpr (.inr ⟨(Option.some.inj hj).symm,rfl⟩)
  · cases hover

/-- A join looks at its shape's life, and goes on. -/
theorem Held.look (h : e.Held) {k : ℕ} {r : Request} {on : Option ℕ} (hr : e.requests[k]? = some r)
    (hphase : r.phase = .waking on) (hsettled : r.stands = true → e.Settled r.shape) :
    (e.setPhase k r .closing).Held := by
  obtain ⟨hjoin,hready,hheld,-⟩ := Request.Ok.waking (h.requests k r hr) hphase
  refine h.setPhase ?_
  simp only [Request.Ok,hjoin]
  exact ⟨hready,fun hs => ⟨hheld hs,hsettled hs⟩⟩

theorem Held.lookReactivating (h : e.Held) (hbase : e.Base) {k j : ℕ} {r : Request}
    {resume : LogPosition} (hr : e.requests[k]? = some r) (hphase : r.phase = .waking none)
    (hlife : e.lives.get? r.shape = some (.reactivating resume j)) :
    (e.setPhase k r (.waking (some j))).Held := by
  obtain ⟨hjoin,hready,hheld,-⟩ := Request.Ok.waking (h.requests k r hr) hphase
  refine h.setPhase ?_
  simp only [Request.Ok,hjoin]
  refine ⟨hready,hheld,fun i hi => ?_⟩
  obtain rfl := Option.some.inj hi
  obtain ⟨w,hw,hshape,hopen⟩ := (hbase.lives.lives _ _ hlife).2 resume j rfl
  exact ⟨w,hw,hshape,fun _ hover => absurd hover hopen⟩

theorem Held.recheck (h : e.Held) {k : ℕ} {r : Request} (hr : e.requests[k]? = some r)
    (hphase : r.phase = if r.creates then .working else .closing) :
    (e.setPhase k r .checked).Held := by
  have hok : r.Ok e := h.requests k r hr
  refine h.setPhase ?_
  cases hc : r.creates <;> simp only [hc,if_true,Bool.false_eq_true,if_false] at hphase <;>
    simp only [Request.Ok,hc,hphase] at hok ⊢ <;> exact hok

/-- One step under the condition keeps what it is for. -/
theorem held_step {a : Action} (h : e.Held) (hbase : e.Base) (hst : Step e a f)
    (hallowed : e.Allowed a) : f.Held := by
  cases hst with
  | mint => exact h.mint
  | create changesOnly isSubquery aggregate definition logged now hsig hfree =>
    exact h.create hbase rfl logged now hsig hfree
  | join now hsig hrec hfree => exact h.join now hsig hfree
  | shareReady hr hphase hready => exact h.shareReady hbase hr hphase hready
  | lookActive hr hphase hlife => exact h.look hr hphase fun _ => hlife
  | lookReactivating hr hphase hlife => exact h.lookReactivating hbase hr hphase hlife
  | lookDormant hr hphase hlife => exact h.lookDormant hr hphase hlife
  | @woken k j r w hr hphase hw hok =>
    obtain ⟨-,-,-,hon⟩ := Request.Ok.waking (h.requests k r hr) hphase
    obtain ⟨w',hw',-,hsettled⟩ := hon j rfl
    rw [hw] at hw'
    obtain rfl := Option.some.inj hw'
    exact h.look hr hphase fun hs => hsettled hs hok
  | recheck hr hphase hshape => exact h.recheck hr hphase
  | answer hr hphase => exact h.answer hbase hr hphase
  | fail hr hphase houtcome => exact h.fail hbase hr hphase houtcome
  | cancel hr hphase => exact h.cancel hbase hr hphase
  | @abandon k r hr hphase =>
    refine h.setPhase ?_
    cases r.creates <;> simp [Request.Ok]
  | undo hr hphase hjoin => exact h.undo hr hallowed
  | undoCreate hr hphase hcreate => exact h.undoCreate hr hphase hcreate
  | finish hlate => exact h.finish _ _
  | backfillSized rows bytes hr hphase => exact h.send _ _
  | release shape sub durable => exact h.release shape sub durable
  | releaseAnonymous durable hvictim => exact h.release _ _ durable
  | renewLocal shape sub now => exact (h.subscribe now hallowed).bookkeep _ _ _
  | sweepLeases window now => exact h.sweepLeases window now
  | purge id durable => exact h.retire id durable
  | evict hevict => exact h.retire _ false
  | deactivate hrec hpark hsubs hlife => exact h.deactivate hsubs
  | deactivated parked hlife => exact (h.leaveDeactivating _ hlife).bookkeep _ _ _
  | stayActive hlife => exact h.leaveDeactivating _ hlife
  | touch hlife => exact h.touch hlife
  | resumed hw hphase => exact (h.record hw).send _ _
  | wokeUp hw hphase => exact h.settle hbase hw (.inr hphase) fun _ => rfl
  | stayDormant hw hphase => exact h.settle hbase hw (.inl hphase) (by simp)
  | sendOther done hev => exact h.send _ done
  | write hc hsent => exact h.bookkeep _ _ _

def GuardedSteps : Engine D → Engine D → Prop :=
  Relation.ReflTransGen fun e f => ∃ a, Step e a f ∧ e.Allowed a

lemma held_booted (h : e.Booted) : e.Held := by
  obtain ⟨-,hrequests,hpromised⟩ := h.idle
  refine ⟨h.related,fun k r hr => ?_,fun c hc => ?_⟩
  · simp [hrequests] at hr
  · simp [hpromised] at hc

theorem held_of_guarded (h : e.Booted) (hrun : GuardedSteps e f) : f.Base ∧ f.Held := by
  induction hrun with
  | refl => exact ⟨base_booted h,held_booted h⟩
  | tail _ hst ih =>
    obtain ⟨a,hst,hallowed⟩ := hst
    exact ⟨base_step ih.1 hst,held_step ih.2 ih.1 hst hallowed⟩

/-- The share tables stay one relation, every acknowledged claim that has not been released, lapsed or
been retired is registered on a live shape of its signature, and no eviction takes such a shape, nor any
shape with subscriptions except for a replay that is not possible any more. -/
theorem subscriptions_held (h : e.Booted) (hrun : GuardedSteps e f) :
    (∀ id x, f.st.subsById.get? x = some id ↔ f.st.lease id x ≠ none) ∧
    (∀ id id' x, f.st.lease id x ≠ none → f.st.lease id' x ≠ none → id = id') ∧
    (∀ id sig, f.st.feedBySig.get? sig = some id ↔
      f.st.shapes.get? id ≠ none ∧ f.st.sigOf id = some sig) ∧
    (∀ c ∈ f.promised, f.st.shapes.get? c.shape ≠ none ∧ f.st.sigOf c.shape = some c.sig ∧
      f.st.lease c.shape c.sub ≠ none) ∧
    ∀ id reason, f.Evictable id reason →
      (reason.replay = false → f.st.refcount id = 0) ∧ ∀ c ∈ f.promised, c.shape ≠ id := by
  obtain ⟨-,hinv⟩ := held_of_guarded h hrun
  have hlive : ∀ id sig, f.st.sigOf id = some sig → f.st.shapes.get? id ≠ none :=
    fun id sig hsig => hinv.related.live id (by simp [hsig])
  refine ⟨hinv.related.owner,fun id id' x => hinv.related.one_shape,fun id sig => ?_,fun c hc => ?_,
    fun id reason hevict => ?_⟩
  · rw [hinv.related.signed id sig]
    exact ⟨fun hsig => ⟨hlive id sig hsig,hsig⟩,And.right⟩
  · obtain ⟨hheld,-⟩ := hinv.promised c hc
    exact ⟨hlive _ _ hheld.1,hheld⟩
  · obtain ⟨rec,-,⟨⟨parked,hlife⟩,hwhy⟩ | ⟨hlife,-,hsubs⟩⟩ := hevict
    · refine ⟨fun hreplay => hwhy.resolve_left (by simp [hreplay]),fun c hc heq => ?_⟩
      obtain ⟨-,-,hsettled⟩ := hinv.promised c hc
      cases (heq ▸ hsettled).of_some hlife
    · exact ⟨fun _ => hsubs,fun c hc heq => (hinv.promised c hc).1.refcount_ne_zero (heq ▸ hsubs)⟩

end

section Sample

def sampleRecord : ShapeRecord Unit := fresh.newRecord false false false ()

def sampleCreate : Request := ⟨true,false,"s1","a","sig",true,.working,true⟩

/-- A shape with the subscription of its create, acknowledged. -/
def sampleCreated : Engine Unit :=
  ((fresh.create sampleRecord "sig" "a" 0 0).setPhase 0 sampleCreate .checked).answer 0
    { sampleCreate with phase := .checked }

/-- A join of this shape by a client that has not joined it yet, or that repeats its join. -/
def sampleJoin (isFresh : Bool) : Request := ⟨false,false,"s1","x","sig",isFresh,.awaiting,true⟩

def sampleJoined (e : Engine Unit) : Engine Unit := e.join sampleRecord "s1" "sig" "x" 5

def sampleAnswered (e : Engine Unit) (k : ℕ) (r : Request) : Engine Unit :=
  (((e.setPhase k r (.waking none)).setPhase k { r with phase := .waking none } .closing).setPhase k
    { r with phase := .closing } .checked).answer k { r with phase := .checked }

/-- The first join is cancelled, its repeat succeeds, and then the first one's guard runs. -/
def sampleLost : Engine Unit :=
  (sampleAnswered (sampleJoined ((sampleJoined sampleCreated).cancel 1 (sampleJoin true))) 2
    (sampleJoin false)).undo 1 { sampleJoin true with phase := .detached }

lemma sample_created : GuardedSteps fresh sampleCreated := by
  have hfree : ∀ id, fresh.st.feedBySig.get? "sig" = some id → fresh.st.shapes.get? id = none :=
    fun _ _ => rfl
  refine .tail (.tail (.single ⟨_,@Step.create _ fresh false false false () "sig" "a" 0 0 hfree
    (by decide +kernel),trivial⟩) ⟨_,.recheck _ (k := 0) (r := sampleCreate) (by decide +kernel)
    (by decide +kernel) ?_,trivial⟩) ⟨_,.answer _ (k := 0) (by decide +kernel) rfl,trivial⟩
  rw [← Option.isSome_iff_ne_none]
  decide +kernel

lemma sample_joined {e : Engine Unit} (hsig : e.st.feedBySig.get? "sig" = some "s1")
    (hrec : e.st.shapes.get? "s1" = some sampleRecord)
    (hfree : e.st.subscriptionFree "x" "s1" = true) : GuardedSteps e (sampleJoined e) :=
  .single ⟨_,.join e 5 hsig hrec hfree,trivial⟩

lemma sample_answered {e : Engine Unit} {k : ℕ} {b : Bool} (hr : e.requests[k]? = some (sampleJoin b))
    (hready : e.outcomes "s1" = some .ready) (hlife : e.lives.get? "s1" = some .active)
    (hshape : e.st.shapes.get? "s1" ≠ none) : GuardedSteps e (sampleAnswered e k (sampleJoin b)) := by
  have hset : ∀ {l : List Request} {r : Request}, k < l.length → (l.set k r)[k]? = some r :=
    fun {l r} hk => List.getElem?_set_self hk
  have hk := (List.getElem?_eq_some_iff.mp hr).1
  refine .tail (.tail (.tail (.single ⟨_,.shareReady e hr rfl hready,trivial⟩) ⟨_,.lookActive _
    (hset hk) rfl (.inr hlife),trivial⟩) ⟨_,.recheck _ (hset ?_) rfl hshape,trivial⟩)
    ⟨_,.answer _ (hset ?_) rfl,trivial⟩
  · simpa [setPhase,setRequest] using hk
  · simpa [setPhase,setRequest] using hk

def sampleHeld : Engine Unit := sampleAnswered (sampleJoined sampleCreated) 1 (sampleJoin true)

lemma sample_held : GuardedSteps fresh sampleHeld :=
  (sample_created.trans (sample_joined (by decide +kernel) (by decide +kernel)
    (by decide +kernel))).trans (sample_answered (by decide +kernel) rfl rfl
      (Option.isSome_iff_ne_none.mp (by decide +kernel)))

theorem sample_subscriptions_held :
    ⟨"s1","x","sig"⟩ ∈ sampleHeld.promised ∧ sampleHeld.st.lease "s1" "x" ≠ none := by
  have hmem : ⟨"s1","x","sig"⟩ ∈ sampleHeld.promised := by decide +kernel
  obtain ⟨-,-,-,hheld,-⟩ := subscriptions_held fresh_booted sample_held
  exact ⟨hmem,(hheld _ hmem).2.2⟩

/-- An acknowledged subscription is lost: the guard of the first request releases what the repeat was
told it holds. -/
theorem sample_claim_lost : ∃ e, Relation.ReflTransGen (fun e f => ∃ a, Step e a f) fresh e ∧
    ∃ c ∈ e.promised, e.st.lease c.shape c.sub = none := by
  have hmono : ∀ {e f : Engine Unit}, GuardedSteps e f →
      Relation.ReflTransGen (fun e f => ∃ a, Step e a f) e f := fun hrun =>
    Relation.ReflTransGen.mono (fun _ _ ⟨a,hst,_⟩ => ⟨a,hst⟩) _ _ hrun
  have hfirst := sample_created.trans (sample_joined (by decide +kernel) (by decide +kernel)
    (by decide +kernel))
  have hcancel : GuardedSteps (sampleJoined sampleCreated)
      ((sampleJoined sampleCreated).cancel 1 (sampleJoin true)) :=
    .single ⟨_,.cancel _ (by decide +kernel) rfl,trivial⟩
  have hrepeat := sample_joined (e := (sampleJoined sampleCreated).cancel 1 (sampleJoin true))
    (by decide +kernel) (by decide +kernel) (by decide +kernel)
  have hsuccess := sample_answered (b := false)
    (e := sampleJoined ((sampleJoined sampleCreated).cancel 1 (sampleJoin true))) (k := 2)
    (by decide +kernel) rfl rfl (Option.isSome_iff_ne_none.mp (by decide +kernel))
  refine ⟨sampleLost,(hmono (((hfirst.trans hcancel).trans hrepeat).trans hsuccess)).tail
    ⟨_,.undo _ (k := 1) (by decide +kernel) rfl rfl⟩,⟨"s1","x","sig"⟩,by decide +kernel,
    by decide +kernel⟩

end Sample
end Engine
end ElectricCircuits
