import ElectricCircuits.Lifecycle.Engine

/-! What holds of an engine at any time, whatever its tasks do: its signatures and shares agree, its
lives and reactivations match, and each create has an id of its own. -/
namespace ElectricCircuits
namespace Engine
variable {D : Type*}

/-- Neither dormant nor on the way. -/
def Settled (e : Engine D) (id : String) : Prop :=
  e.lives.get? id = none ∨ e.lives.get? id = some .active

def Minted (e : Engine D) (id : String) : Prop := ∃ n < e.st.nextShapeId, id = shapeId n

/-- The lives belong to minted shapes, and a reactivation is its shape's only one. -/
structure LivesOk (e : Engine D) : Prop where
  lives : ∀ id life, e.lives.get? id = some life → e.Minted id ∧
    ∀ resume j, life = .reactivating resume j →
      ∃ w, e.wakes[j]? = some w ∧ w.shape = id ∧ w.phase ≠ .over true
  wakes : ∀ (j : ℕ) w, e.wakes[j]? = some w → e.Minted w.shape ∧
    (w.phase = .running ∨ w.phase = .recorded → ∀ life, e.lives.get? w.shape = some life →
      ∃ resume, life = .reactivating resume j)
  steady : ∀ id rec, e.st.shapes.get? id = some rec → rec.aggregate = true → e.Settled id

structure Base (e : Engine D) : Prop where
  signed : e.st.Signed
  minted : ∀ id, e.st.shapes.get? id ≠ none → e.Minted id
  lives : e.LivesOk
  requests : ∀ (k : ℕ) r, e.requests[k]? = some r → e.Minted r.shape ∧
    ∀ rec, e.st.shapes.get? r.shape = some rec → rec.aggregate = r.aggregate
  creators : ∀ (k k' : ℕ) r r', e.requests[k]? = some r → e.requests[k']? = some r' →
    r.creates = true → r'.creates = true → r.shape = r'.shape → k = k'

section
variable {e f : Engine D}

lemma Minted.mono {id : String} (h : e.Minted id) (hnext : e.st.nextShapeId ≤ f.st.nextShapeId) :
    f.Minted id := by
  obtain ⟨n,hn,rfl⟩ := h
  exact ⟨n,hn.trans_le hnext,rfl⟩

lemma not_minted_next : ¬e.Minted (shapeId e.st.nextShapeId) := fun ⟨_,hn,heq⟩ =>
  hn.ne (shapeId_inj.mp heq).symm

lemma Settled.frame {id : String} (h : e.Settled id)
    (hlives : f.lives.get? id = e.lives.get? id ∨ f.lives.get? id = none) : f.Settled id := by
  rcases hlives with hsame | hnone
  · rwa [Settled,hsame]
  · exact .inl hnone

lemma Settled.of_some {id : String} {life : ShapeLife} (h : e.Settled id)
    (hlife : e.lives.get? id = some life) : life = .active := by
  rcases h with hnone | hactive
  · rw [hlife] at hnone
    cases hnone
  · rw [hlife] at hactive
    exact Option.some.inj hactive

lemma Settled.setLife {id id' : String} {life : ShapeLife} (h : e.Settled id')
    (hlife : id = id' → e.lives.get? id = none ∨ life = .active) : (e.setLife id life).Settled id' := by
  rw [Settled,lives_setLife]
  split_ifs with heq
  · subst heq
    rcases hlife rfl with hnone | hactive
    · exact .inl (by rw [hnone]; rfl)
    · cases hl : e.lives.get? id with
      | none => exact .inl rfl
      | some old => exact .inr (by rw [hactive]; rfl)
  · exact h

/-- Lives end, and shapes are retired. -/
lemma LivesOk.frame (h : e.LivesOk) (hnext : e.st.nextShapeId ≤ f.st.nextShapeId)
    (hshapes : ∀ id rec, f.st.shapes.get? id = some rec → e.st.shapes.get? id = some rec)
    (hlives : ∀ id, f.lives.get? id = e.lives.get? id ∨ f.lives.get? id = none)
    (hwakes : f.wakes = e.wakes) : f.LivesOk := by
  have hlife : ∀ id life, f.lives.get? id = some life → e.lives.get? id = some life :=
    fun id life hf => by
      rcases hlives id with hsame | hnone
      · rwa [← hsame]
      · rw [hnone] at hf
        cases hf
  refine ⟨fun id life hf => ?_,fun j w hw => ?_,fun id rec hrec hagg => ?_⟩
  · obtain ⟨hminted,hwake⟩ := h.lives id life (hlife id life hf)
    exact ⟨hminted.mono hnext,by rwa [hwakes]⟩
  · rw [hwakes] at hw
    obtain ⟨hminted,hrunning⟩ := h.wakes j w hw
    exact ⟨hminted.mono hnext,fun hphase life hf => hrunning hphase life (hlife _ _ hf)⟩
  · rcases hlives id with hsame | hnone
    · have := h.steady id rec (hshapes id rec hrec) hagg
      rwa [Settled,hsame]
    · exact .inl hnone

/-- A life changes that no reactivation is about. -/
lemma LivesOk.setLife (h : e.LivesOk) {id : String} {old life : ShapeLife}
    (hold : e.lives.get? id = some old) (hidle : ∀ resume j, old ≠ .reactivating resume j)
    (hlife : ∀ resume j, life ≠ .reactivating resume j)
    (hsteady : e.Settled id → (∃ rec, e.st.shapes.get? id = some rec ∧ rec.aggregate = true) →
      life = .active) : (e.setLife id life).LivesOk := by
  have hget := lives_setLife e id
  refine ⟨fun id' life' hl => ?_,fun j w hw => ?_,fun id' rec hrec hagg => ?_⟩
  · rw [hget] at hl
    split_ifs at hl with heq
    · subst heq
      rw [hold] at hl
      refine ⟨(h.lives id old hold).1,fun resume j hre => absurd ?_ (hlife resume j)⟩
      exact (Option.some.inj hl).trans hre
    · exact h.lives id' life' hl
  · obtain ⟨hminted,hrunning⟩ := h.wakes j w hw
    refine ⟨hminted,fun hphase life' hl => ?_⟩
    rw [hget] at hl
    split_ifs at hl with heq
    · obtain ⟨resume,hre⟩ := hrunning hphase old (heq ▸ hold)
      exact absurd hre (hidle resume j)
    · exact hrunning hphase life' hl
  · have hsettled := h.steady id' rec hrec hagg
    rw [Settled,hget]
    split_ifs with heq
    · subst heq
      rw [hold,hsteady hsettled ⟨rec,hrec,hagg⟩]
      exact .inr rfl
    · exact hsettled

/-- A parkable shape leaves the active state. -/
lemma LivesOk.deactivate (h : e.LivesOk) {id : String} {rec : ShapeRecord D}
    (hrec : e.st.shapes.get? id = some rec) (hpark : rec.parkable = true)
    (hlife : e.lives.get? id = some .active) : (e.setLife id .deactivating).LivesOk := by
  refine h.setLife hlife (by simp) (by simp) fun _ ⟨rec',hrec',hagg⟩ => ?_
  rw [hrec] at hrec'
  rw [Option.some.inj hrec',ShapeRecord.parkable,Bool.and_eq_true,Bool.and_eq_true] at hpark
  simp [hagg] at hpark

lemma LivesOk.leaveDeactivating (h : e.LivesOk) {id : String} {life : ShapeLife}
    (hlife : e.lives.get? id = some .deactivating) (hnew : ∀ resume j, life ≠ .reactivating resume j) :
    (e.setLife id life).LivesOk :=
  h.setLife hlife (by simp) hnew fun hs => by cases hs.of_some hlife

lemma lives_touch (id id' : String) (parked : Parked) : (e.touch id parked).lives.get? id' =
    if id = id' then some (.reactivating parked.resume e.wakes.length) else e.lives.get? id' := by
  simp [Engine.touch,AssocMap.get?_insert]

lemma wakes_touch {id : String} {parked : Parked} {j : ℕ} {w : Wake} :
    (e.touch id parked).wakes[j]? = some w ↔
      e.wakes[j]? = some w ∨ j = e.wakes.length ∧ w = ⟨id,parked,.running⟩ := by
  simp only [Engine.touch,List.getElem?_append]
  split_ifs with hj
  · refine ⟨.inl,fun h => h.resolve_right fun hlast => ?_⟩
    omega
  · rw [List.getElem?_eq_none (Nat.le_of_not_lt hj),List.getElem?_singleton]
    by_cases hlast : j = e.wakes.length
    · simp [hlast,eq_comm]
    · have hbeyond : j-e.wakes.length ≠ 0 := by omega
      simp [hlast,hbeyond]

lemma Settled.touch {id id' : String} {parked : Parked}
    (hlife : e.lives.get? id = some (.dormant parked)) (hs : e.Settled id') :
    (e.touch id parked).Settled id' := by
  have hne : id ≠ id' := fun heq => by cases (heq ▸ hs).of_some hlife
  rwa [Settled,lives_touch,if_neg hne]

lemma LivesOk.touch (h : e.LivesOk) {id : String} {parked : Parked}
    (hlife : e.lives.get? id = some (.dormant parked)) : (e.touch id parked).LivesOk := by
  refine ⟨fun id' life hl => ?_,fun j w hw => ?_,fun id' rec hrec hagg => ?_⟩
  · rw [lives_touch] at hl
    split_ifs at hl with heq
    · subst heq
      refine ⟨(h.lives id _ hlife).1,fun resume j hre => ?_⟩
      rw [← Option.some.inj hl] at hre
      obtain ⟨-,rfl⟩ := ShapeLife.reactivating.inj hre
      exact ⟨⟨id,parked,.running⟩,wakes_touch.mpr (.inr ⟨rfl,rfl⟩),rfl,by simp⟩
    · obtain ⟨hminted,hwake⟩ := h.lives id' life hl
      refine ⟨hminted,fun resume j hre => ?_⟩
      obtain ⟨w,hw,hopen⟩ := hwake resume j hre
      exact ⟨w,wakes_touch.mpr (.inl hw),hopen⟩
  · rcases wakes_touch.mp hw with hw | ⟨rfl,rfl⟩
    · obtain ⟨hminted,hrunning⟩ := h.wakes j w hw
      refine ⟨hminted,fun hphase life hl => ?_⟩
      rw [lives_touch] at hl
      split_ifs at hl with heq
      · obtain ⟨_,hre⟩ := hrunning hphase _ (heq ▸ hlife)
        cases hre
      · exact hrunning hphase life hl
    · refine ⟨(h.lives id _ hlife).1,fun _ life hl => ?_⟩
      rw [lives_touch,if_pos rfl] at hl
      exact ⟨_,(Option.some.inj hl).symm⟩
  · exact (h.steady id' rec hrec hagg).touch hlife

lemma wakes_setWake {j : ℕ} {w : Wake} {phase : WakePhase} (hw : e.wakes[j]? = some w) (i : ℕ) :
    (e.setWake j w phase).wakes[i]? = if j = i then some { w with phase } else e.wakes[i]? := by
  simp only [setWake,List.getElem?_set,(List.getElem?_eq_some_iff.mp hw).1,if_true]

/-- A wake after one of them went on is the same one, with its phase. -/
lemma exists_setWake {j i : ℕ} {w x : Wake} (phase : WakePhase) (hw : e.wakes[j]? = some w)
    (hx : e.wakes[i]? = some x) : ∃ y, (e.setWake j w phase).wakes[i]? = some y ∧
      y.shape = x.shape ∧ (i = j ∧ x = w ∧ y.phase = phase ∨ i ≠ j ∧ y = x) := by
  rw [wakes_setWake hw]
  by_cases hij : j = i
  · subst hij
    rw [hw] at hx
    obtain rfl := Option.some.inj hx
    exact ⟨_,if_pos rfl,rfl,.inl ⟨rfl,rfl,rfl⟩⟩
  · exact ⟨x,(if_neg hij).trans hx,rfl,.inr ⟨Ne.symm hij,rfl⟩⟩

/-- A wake that runs still holds its shape's life. -/
lemma LivesOk.unsettled (h : e.LivesOk) {j : ℕ} {w : Wake} (hw : e.wakes[j]? = some w)
    (hphase : w.phase = .running ∨ w.phase = .recorded) (hs : e.Settled w.shape) :
    e.lives.get? w.shape = none := by
  rcases hs with hnone | hactive
  · exact hnone
  · obtain ⟨_,hre⟩ := (h.wakes j w hw).2 hphase _ hactive
    cases hre

lemma Settled.settle {id : String} {j : ℕ} {w : Wake} {phase : WakePhase} {life : ShapeLife}
    (hs : e.Settled id) (h : e.LivesOk) (hw : e.wakes[j]? = some w)
    (hphase : w.phase = .running ∨ w.phase = .recorded) :
    ((e.setWake j w phase).setLife w.shape life).Settled id := by
  refine Settled.setLife (e := e.setWake j w phase) hs fun heq => ?_
  subst heq
  exact .inl (h.unsettled hw hphase hs)

/-- A reactivation is over, and the life of its shape with it. -/
lemma LivesOk.settle (h : e.LivesOk) {j : ℕ} {w : Wake} {ok : Bool} {life : ShapeLife}
    (hw : e.wakes[j]? = some w) (hphase : w.phase = .running ∨ w.phase = .recorded)
    (hlife : ∀ resume i, life ≠ .reactivating resume i) :
    ((e.setWake j w (.over ok)).setLife w.shape life).LivesOk := by
  obtain ⟨hminted,hrunning⟩ := h.wakes j w hw
  have hget : ∀ id, ((e.setWake j w (.over ok)).setLife w.shape life).lives.get? id =
      if w.shape = id then (e.lives.get? w.shape).map fun _ => life else e.lives.get? id :=
    fun id => lives_setLife (e.setWake j w (.over ok)) w.shape id life
  have hwakes : ∀ i, ((e.setWake j w (.over ok)).setLife w.shape life).wakes[i]? =
    if j = i then some { w with phase := .over ok } else e.wakes[i]? := wakes_setWake hw
  refine ⟨fun id life' hl => ?_,fun i x hx => ?_,
    fun id rec hrec hagg => (h.steady id rec hrec hagg).settle h hw hphase⟩
  · rw [hget] at hl
    split_ifs at hl with heq
    · subst heq
      obtain ⟨old,-,rfl⟩ := Option.map_eq_some_iff.mp hl
      exact ⟨hminted,fun resume i hre => absurd hre (hlife resume i)⟩
    · obtain ⟨hmint,hwake⟩ := h.lives id life' hl
      refine ⟨hmint,fun resume i hre => ?_⟩
      obtain ⟨x,hx,hshape,hopen⟩ := hwake resume i hre
      have hij : j ≠ i := fun hij => by
        subst hij
        rw [hw] at hx
        exact heq ((Option.some.inj hx) ▸ hshape)
      exact ⟨x,by rw [hwakes,if_neg hij,hx],hshape,hopen⟩
  · rw [hwakes] at hx
    split_ifs at hx with hij
    · obtain rfl := Option.some.inj hx
      refine ⟨hminted,fun hstill => ?_⟩
      rcases hstill with hs | hs <;> cases hs
    · obtain ⟨hmint,hrun⟩ := h.wakes i x hx
      refine ⟨hmint,fun hstill life' hl => ?_⟩
      rw [hget] at hl
      split_ifs at hl with heq
      · -- two reactivations of one shape are one
        obtain ⟨old,hold,-⟩ := Option.map_eq_some_iff.mp hl
        obtain ⟨_,hre⟩ := hrunning hphase old hold
        obtain ⟨_,hre'⟩ := hrun hstill old (heq ▸ hold)
        rw [hre] at hre'
        exact absurd (ShapeLife.reactivating.inj hre').2 hij
      · exact hrun hstill life' hl

lemma LivesOk.record (h : e.LivesOk) {j : ℕ} {w : Wake} (hw : e.wakes[j]? = some w)
    (hphase : w.phase = .running) : (e.setWake j w .recorded).LivesOk := by
  refine ⟨fun id life hl => ?_,fun i x hx => ?_,h.steady⟩
  · obtain ⟨hmint,hwake⟩ := h.lives id life hl
    refine ⟨hmint,fun resume i hre => ?_⟩
    obtain ⟨x,hx,hshape,hopen⟩ := hwake resume i hre
    obtain ⟨y,hy,hys,hcase⟩ := exists_setWake .recorded hw hx
    refine ⟨y,hy,hys.trans hshape,?_⟩
    rcases hcase with ⟨-,-,hp⟩ | ⟨-,rfl⟩
    · simp [hp]
    · exact hopen
  · rw [wakes_setWake hw] at hx
    split_ifs at hx with hij
    · obtain rfl := Option.some.inj hx
      obtain ⟨hmint,hrun⟩ := h.wakes j w hw
      exact ⟨hmint,fun _ life hl => hij ▸ hrun (.inl hphase) life hl⟩
    · exact h.wakes i x hx

/-- The tables change and requests go on, and neither shapes nor lives are new. -/
theorem Base.frame (h : e.Base) (hsigned : f.st.Signed) (hnext : e.st.nextShapeId ≤ f.st.nextShapeId)
    (hshapes : ∀ id rec, f.st.shapes.get? id = some rec → e.st.shapes.get? id = some rec)
    (hlives : f.LivesOk)
    (hreq : ∀ (k : ℕ) r, f.requests[k]? = some r → ∃ r₀, e.requests[k]? = some r₀ ∧
      r.shape = r₀.shape ∧ r.aggregate = r₀.aggregate ∧ r.creates = r₀.creates) : f.Base := by
  refine ⟨hsigned,fun id hid => ?_,hlives,fun k r hr => ?_,fun k k' r r' hr hr' hc hc' hshape => ?_⟩
  · obtain ⟨rec,hrec⟩ := Option.ne_none_iff_exists'.mp hid
    exact (h.minted id (by simp [hshapes id rec hrec])).mono hnext
  · obtain ⟨r₀,hr₀,hs,ha,-⟩ := hreq k r hr
    obtain ⟨hminted,hkind⟩ := h.requests k r₀ hr₀
    rw [hs,ha]
    exact ⟨hminted.mono hnext,fun rec hrec => hkind rec (hshapes _ _ hrec)⟩
  · obtain ⟨r₀,hr₀,hs,-,hcr⟩ := hreq k r hr
    obtain ⟨r₀',hr₀',hs',-,hcr'⟩ := hreq k' r' hr'
    exact h.creators k k' r₀ r₀' hr₀ hr₀' (hcr ▸ hc) (hcr' ▸ hc') (hs ▸ hs' ▸ hshape)

lemma getElem?_setPhase {k i : ℕ} {r x : Request} {phase : RequestPhase}
    (hx : (e.setPhase k r phase).requests[i]? = some x) :
    i = k ∧ x = { r with phase } ∨ i ≠ k ∧ e.requests[i]? = some x := by
  simp only [setPhase,setRequest,List.getElem?_set] at hx
  by_cases hik : k = i
  · subst hik
    rw [if_pos rfl] at hx
    split_ifs at hx
    exact .inl ⟨rfl,(Option.some.inj hx).symm⟩
  · rw [if_neg hik] at hx
    exact .inr ⟨Ne.symm hik,hx⟩

lemma requests_setPhase {k i : ℕ} {r x : Request} {phase : RequestPhase}
    (hr : e.requests[k]? = some r) (hx : (e.setPhase k r phase).requests[i]? = some x) :
    ∃ r₀, e.requests[i]? = some r₀ ∧
      x.shape = r₀.shape ∧ x.aggregate = r₀.aggregate ∧ x.creates = r₀.creates := by
  rcases getElem?_setPhase hx with ⟨rfl,rfl⟩ | ⟨-,hold⟩
  · exact ⟨r,hr,rfl,rfl,rfl⟩
  · exact ⟨x,hold,rfl,rfl,rfl⟩

lemma requests_ends {ends : String → String → Bool} {k : ℕ} {r : Request}
    (hr : (e.endClaims ends).requests[k]? = some r) : ∃ r₀, e.requests[k]? = some r₀ ∧
      r.shape = r₀.shape ∧ r.aggregate = r₀.aggregate ∧ r.creates = r₀.creates := by
  simp only [endClaims,List.getElem?_map,Option.map_eq_some_iff] at hr
  obtain ⟨r₀,hr₀,rfl⟩ := hr
  exact ⟨r₀,hr₀,rfl,rfl,rfl⟩

lemma requests_id {k : ℕ} {r : Request} (hr : e.requests[k]? = some r) :
    ∃ r₀, e.requests[k]? = some r₀ ∧
      r.shape = r₀.shape ∧ r.aggregate = r₀.aggregate ∧ r.creates = r₀.creates :=
  ⟨r,hr,rfl,rfl,rfl⟩

lemma Base.setPhase (h : e.Base) {k : ℕ} {r : Request} (hr : e.requests[k]? = some r)
    (phase : RequestPhase) : (e.setPhase k r phase).Base :=
  h.frame h.signed le_rfl (fun _ _ => id)
    (h.lives.frame le_rfl (fun _ _ => id) (fun _ => .inl rfl) rfl) fun _ _ => requests_setPhase hr

/-- Lives change. -/
lemma Base.relive (h : e.Base) (lives : AssocMap String ShapeLife) (wakes : List Wake)
    (hlives : LivesOk { e with lives, wakes }) : Base { e with lives, wakes } :=
  h.frame h.signed le_rfl (fun _ _ => id) hlives fun _ _ => requests_id

/-- Neither the catalog nor what is told or noted matters here. -/
lemma Base.bookkeep (h : e.Base) (outcomes : String → Option ShareOutcome) (late : List Late)
    (catalog : CatalogWriter (CatalogEvent D)) (promised : List Claim)
    (polled : List (String × String)) : Base { e with outcomes, late, catalog, promised, polled } :=
  h.frame h.signed le_rfl (fun _ _ => id)
    (h.lives.frame le_rfl (fun _ _ => id) (fun _ => .inl rfl) rfl) fun _ _ => requests_id

lemma Base.send (h : e.Base) (ev : CatalogEvent D) (done : Bool) : (e.send ev done).Base :=
  h.bookkeep e.outcomes e.late (e.catalog.send ev done) e.promised e.polled

lemma Base.sendIf (h : e.Base) (b : Bool) (ev : CatalogEvent D) (done : Bool) :
    (e.sendIf b ev done).Base := by
  obtain ⟨c,hsend⟩ := exists_sendIf e b ev done
  rw [hsend]
  exact h.bookkeep e.outcomes e.late c e.promised e.polled

/-- Claims come and go. -/
lemma Base.claims (h : e.Base) (st : EngineState D) (hsigned : st.Signed)
    (hshapes : st.shapes = e.st.shapes) (hnext : st.nextShapeId = e.st.nextShapeId) :
    Base { e with st } :=
  h.frame hsigned hnext.ge (fun id rec hrec => by rwa [← hshapes])
    (h.lives.frame hnext.ge (fun id rec hrec => by rwa [← hshapes]) (fun _ => .inl rfl) rfl)
    fun _ _ => requests_id

lemma Base.endClaims (h : e.Base) (ends : String → String → Bool) : (e.endClaims ends).Base :=
  h.frame h.signed le_rfl (fun _ _ => id)
    (h.lives.frame le_rfl (fun _ _ => id) (fun _ => .inl rfl) rfl) fun _ _ => requests_ends

lemma shapes_of_retire {id id' : String} {rec : ShapeRecord D}
    (h : (e.st.retire id).shapes.get? id' = some rec) : e.st.shapes.get? id' = some rec := by
  rw [EngineState.shapes_retire,AssocMap.get?_erase] at h
  split_ifs at h
  exact h

lemma erase_lives (id id' : String) :
    (e.lives.erase id).get? id' = e.lives.get? id' ∨ (e.lives.erase id).get? id' = none := by
  rw [AssocMap.get?_erase]
  split_ifs
  · exact .inr rfl
  · exact .inl rfl

/-- A shape goes, and its life with it or later. -/
lemma Base.retire (h : e.Base) (id : String) {lives : AssocMap String ShapeLife}
    (hlives : ∀ id, lives.get? id = e.lives.get? id ∨ lives.get? id = none) :
    Base { e with st := e.st.retire id, lives } :=
  h.frame (h.signed.retire id) (EngineState.nextShapeId_retire _).ge (fun _ _ => shapes_of_retire)
    (h.lives.frame (EngineState.nextShapeId_retire _).ge (fun _ _ => shapes_of_retire) hlives rfl)
    fun _ _ => requests_id

/-- A request beyond those that there were is the new one. -/
lemma requests_append {r x : Request} {i : ℕ} (hx : (e.requests ++ [r])[i]? = some x) :
    e.requests[i]? = some x ∨ i = e.requests.length ∧ x = r := by
  rw [List.getElem?_append] at hx
  split_ifs at hx with hi
  · exact .inl hx
  · obtain ⟨hlt,hx⟩ := List.getElem?_eq_some_iff.mp hx
    have hzero : i-e.requests.length = 0 := by simpa using hlt
    refine .inr ⟨by omega,?_⟩
    rw [← hx]
    simp

lemma Base.addRequest (h : e.Base) {r : Request} (hminted : e.Minted r.shape)
    (hkind : ∀ rec, e.st.shapes.get? r.shape = some rec → rec.aggregate = r.aggregate)
    (hnew : r.creates = true → ∀ (k : ℕ) r', e.requests[k]? = some r' → r'.creates = true →
      r'.shape ≠ r.shape) : Base { e with requests := e.requests ++ [r] } := by
  refine ⟨h.signed,h.minted,h.lives.frame le_rfl (fun _ _ => id) (fun _ => .inl rfl) rfl,
    fun i x hx => ?_,fun i i' x x' hx hx' hcx hcx' hshape => ?_⟩
  · rcases requests_append hx with hold | ⟨-,rfl⟩
    · exact h.requests i x hold
    · exact ⟨hminted,hkind⟩
  · rcases requests_append hx with hold | ⟨rfl,rfl⟩
    · rcases requests_append hx' with hold' | ⟨rfl,rfl⟩
      · exact h.creators i i' x x' hold hold' hcx hcx' hshape
      · exact absurd hshape (hnew hcx' i x hold hcx)
    · rcases requests_append hx' with hold' | ⟨rfl,-⟩
      · exact absurd hshape.symm (hnew hcx i' x' hold' hcx')
      · rfl

/-- What a signature leads to is shared. -/
lemma Base.shared (h : e.Base) {sig id : String} (hsig : e.st.feedBySig.get? sig = some id) :
    e.st.sigOf id = some sig := (h.signed.signed id sig).mp hsig

theorem Base.join (h : e.Base) {sig sub id : String} {rec : ShapeRecord D} (now : ℕ)
    (hrec : e.st.shapes.get? id = some rec) : (e.join rec id sig sub now).Base := by
  have hclaims := h.claims (e.st.subscribe id sub now).1 h.signed.subscribe
    EngineState.shapes_subscribe EngineState.nextShapeId_subscribe
  have hminted := (h.minted id (by simp [hrec])).mono (f := { e with
    st := (e.st.subscribe id sub now).1 }) EngineState.nextShapeId_subscribe.ge
  refine Base.send (hclaims.addRequest hminted (fun rec' hrec' => ?_) (by simp)) _ _
  rw [EngineState.shapes_subscribe,hrec] at hrec'
  rw [Option.some.inj hrec']

/-- Nothing knows of the next id. -/
structure Unknown (e : Engine D) (id : String) : Prop where
  other : ∀ id', e.Minted id' → id ≠ id'
  shape : e.st.shapes.get? id = none
  sig : e.st.sigOf id = none
  life : e.lives.get? id = none

lemma Base.unknown (h : e.Base) : e.Unknown (shapeId e.st.nextShapeId) := by
  have hother : ∀ id', e.Minted id' → shapeId e.st.nextShapeId ≠ id' := fun id' hminted heq =>
    not_minted_next (heq ▸ hminted)
  have hshape : e.st.shapes.get? (shapeId e.st.nextShapeId) = none := by
    by_contra hshape
    exact hother _ (h.minted _ hshape) rfl
  refine ⟨hother,hshape,?_,?_⟩
  · by_contra hshared
    exact h.signed.live _ hshared hshape
  · by_contra hlife
    obtain ⟨life,hlife⟩ := Option.ne_none_iff_exists'.mp hlife
    exact hother _ (h.lives.lives _ life hlife).1 rfl

lemma Base.no_feed (h : e.Base) {sig : String}
    (hsig : ∀ id, e.st.feedBySig.get? sig = some id → e.st.shapes.get? id = none) :
    e.st.feedBySig.get? sig = none := by
  by_contra hfeed
  obtain ⟨id,hid⟩ := Option.ne_none_iff_exists'.mp hfeed
  refine h.signed.live id ?_ (hsig id hid)
  simp [h.shared hid]

/-- What a create leaves of the lives. -/
lemma LivesOk.register (h : e.LivesOk) {rec : ShapeRecord D} (hnew : e.Unknown rec.id)
    (hid : rec.id = shapeId e.st.nextShapeId) (sig sub : String) (now : ℕ)
    (outcomes : String → Option ShareOutcome) :
    LivesOk { e with
      st := e.st.register rec sig sub now
      lives := e.lives.insert rec.id .active
      outcomes } := by
  have hlives : ∀ id, rec.id ≠ id → (e.lives.insert rec.id .active).get? id = e.lives.get? id :=
    fun id hne => by rw [AssocMap.get?_insert]; simp [hne]
  have hself : ∃ n < (e.st.register rec sig sub now).nextShapeId, rec.id = shapeId n :=
    ⟨_,by rw [EngineState.nextShapeId_register]; omega,hid⟩
  have hmono : ∀ {id}, e.Minted id → ∃ n < (e.st.register rec sig sub now).nextShapeId,
      id = shapeId n := fun {id} ⟨n,hn,heq⟩ =>
    ⟨n,by rw [EngineState.nextShapeId_register]; omega,heq⟩
  refine ⟨fun id life hlife => ?_,fun j w hw => ?_,fun id rec' hrec' hagg => ?_⟩
  · by_cases heq : rec.id = id
    · subst heq
      have hactive : life = .active := by simpa using hlife.symm
      exact ⟨hself,fun resume j hre => by rw [hactive] at hre; cases hre⟩
    · rw [hlives id heq] at hlife
      obtain ⟨hminted,hwake⟩ := h.lives id life hlife
      exact ⟨hmono hminted,hwake⟩
  · obtain ⟨hminted,hrunning⟩ := h.wakes j w hw
    refine ⟨hmono hminted,?_⟩
    rwa [hlives w.shape (hnew.other _ hminted)]
  · by_cases heq : rec.id = id
    · subst heq
      exact .inr (AssocMap.get?_insert_self _ _ _)
    · rw [EngineState.shapes_register,AssocMap.get?_insert,if_neg (by simpa using heq)] at hrec'
      have := h.steady id rec' hrec' hagg
      rwa [Settled,hlives id heq]

/-- A create makes a shape that nothing knows of. -/
theorem Base.create (h : e.Base) {rec : ShapeRecord D} (hid : rec.id = shapeId e.st.nextShapeId)
    {sig : String} (sub : String) (logged now : ℕ)
    (hsig : ∀ id, e.st.feedBySig.get? sig = some id → e.st.shapes.get? id = none) :
    (e.create rec sig sub logged now).Base := by
  have hnew : e.Unknown rec.id := hid ▸ h.unknown
  have hself : ∃ n < (e.st.register rec sig sub now).nextShapeId, rec.id = shapeId n :=
    ⟨_,by rw [EngineState.nextShapeId_register]; omega,hid⟩
  have hmono : ∀ {id}, e.Minted id → ∃ n < (e.st.register rec sig sub now).nextShapeId,
      id = shapeId n := fun {id} ⟨n,hn,heq⟩ =>
    ⟨n,by rw [EngineState.nextShapeId_register]; omega,heq⟩
  have hshapes : ∀ id, rec.id ≠ id →
      (e.st.register rec sig sub now).shapes.get? id = e.st.shapes.get? id := fun id hne => by
    rw [EngineState.shapes_register,AssocMap.get?_insert,if_neg (by simpa using hne)]
  have hregistered : Base { e with
      st := e.st.register rec sig sub now
      lives := e.lives.insert rec.id .active
      outcomes := Function.update e.outcomes rec.id (some .pending) } := by
    refine ⟨h.signed.register hnew.sig (h.no_feed hsig),fun id hshape => ?_,
      h.lives.register hnew hid sig sub now _,fun k r hr => ?_,h.creators⟩
    · by_cases heq : rec.id = id
      · exact heq ▸ hself
      · rw [hshapes id heq] at hshape
        exact hmono (h.minted id hshape)
    · obtain ⟨hminted,hkind⟩ := h.requests k r hr
      refine ⟨hmono hminted,fun rec' hrec' => hkind rec' ?_⟩
      rwa [hshapes _ (hnew.other _ hminted)] at hrec'
  refine Base.send (hregistered.addRequest (by exact hself) (fun rec' hrec' => ?_) ?_) _ _
  · rw [EngineState.shapes_register,AssocMap.get?_insert_self] at hrec'
    rw [← Option.some.inj hrec']
  · intro _ k r' hr' _ heq
    exact hnew.other r'.shape (h.requests k r' hr').1 heq.symm

lemma Base.undoCreate (h : e.Base) {k : ℕ} {r : Request} (hr : e.requests[k]? = some r) :
    (e.undoCreate k r).Base := by
  rw [Engine.undoCreate,EngineState.rollbackCreate_eq h.signed]
  exact ((h.setPhase hr .over).retire r.shape fun _ => .inl rfl).bookkeep _ _ _ _ _

lemma Base.finish (h : e.Base) (rest : List Late) (l : Late) : (e.finish rest l).Base := by
  cases l with
  | left shape sub => exact (h.bookkeep _ rest _ _ _).send _ _
  | dormant id parked => exact (h.bookkeep _ rest _ _ _).send _ _
  | rolledBack id existed =>
    have hgone : Base { e with lives := e.lives.erase id } :=
      h.relive _ e.wakes (h.lives.frame le_rfl (fun _ _ h => h) (erase_lives id) rfl)
    exact (hgone.bookkeep e.outcomes rest e.catalog e.promised e.polled).sendIf _ _ _

theorem base_step {a : Action} (h : e.Base) (hst : Step e a f) : f.Base := by
  cases hst with
  | mint =>
    refine h.frame ⟨h.signed.signed,h.signed.live⟩ (Nat.le_succ _) (fun _ _ => id)
      (h.lives.frame (Nat.le_succ _) (fun _ _ => id) (fun _ => .inl rfl) rfl) fun _ _ => requests_id
  | create changesOnly isSubquery aggregate definition logged now hsig hfree =>
    exact h.create rfl _ logged now hsig
  | join now hsig hrec hfree => exact h.join now hrec
  | shareReady hr hphase hready => exact h.setPhase hr _
  | lookActive hr hphase hlife => exact h.setPhase hr _
  | lookReactivating hr hphase hlife => exact h.setPhase hr _
  | lookDormant hr hphase hlife => exact (h.relive _ _ (h.lives.touch hlife)).setPhase hr _
  | woken hr hphase hw hok => exact h.setPhase hr _
  | recheck hr hphase hshape => exact h.setPhase hr _
  | answer hr hphase => exact (h.setPhase hr .answered).bookkeep _ _ _ _ _
  | fail hr hphase houtcome => exact (h.setPhase hr _).bookkeep _ _ _ _ _
  | cancel hr hphase => exact (h.setPhase hr _).bookkeep _ _ _ _ _
  | abandon hr hphase => exact h.setPhase hr _
  | undo hr hphase hjoin =>
    have hset := h.setPhase hr .over
    exact (hset.claims _ hset.signed.unsubscribe EngineState.shapes_unsubscribe
      EngineState.nextShapeId_unsubscribe).sendIf _ _ _
  | undoCreate hr hphase hcreate => exact h.undoCreate hr
  | finish hlate => exact h.finish _ _
  | backfillSized rows bytes hr hphase => exact h.send _ _
  | release shape sub durable =>
    exact ((h.claims _ h.signed.unsubscribe EngineState.shapes_unsubscribe
      EngineState.nextShapeId_unsubscribe).sendIf _ _ _).endClaims _
  | releaseAnonymous durable hvictim =>
    exact ((h.claims _ h.signed.unsubscribe EngineState.shapes_unsubscribe
      EngineState.nextShapeId_unsubscribe).sendIf _ _ _).endClaims _
  | renewLocal shape sub now =>
    exact (h.claims _ h.signed.subscribe EngineState.shapes_subscribe
      EngineState.nextShapeId_subscribe).bookkeep _ _ _ _ _
  | sweepLeases window now =>
    have hclaims := h.claims (e.st.unsubscribeAll (e.st.lapsedSubscriptions window now))
      h.signed.unsubscribeAll EngineState.shapes_unsubscribeAll EngineState.nextShapeId_unsubscribeAll
    unfold Engine.sweepLeases
    exact (hclaims.bookkeep e.outcomes _ e.catalog e.promised e.polled).endClaims _
  | purge id durable => exact ((h.retire id (erase_lives id)).sendIf _ _ _).endClaims _
  | evict hevict => exact ((h.retire _ (erase_lives _)).sendIf _ _ _).endClaims _
  | deactivate hrec hpark hsubs hlife =>
    exact h.relive _ e.wakes (h.lives.deactivate hrec hpark hlife)
  | deactivated parked hlife =>
    exact (h.relive _ e.wakes (h.lives.leaveDeactivating hlife (by simp))).bookkeep _ _ _ _ _
  | stayActive hlife =>
    exact h.relive _ e.wakes (h.lives.leaveDeactivating hlife (by simp))
  | touch hlife => exact h.relive _ _ (h.lives.touch hlife)
  | resumed hw hphase => exact (h.relive e.lives _ (h.lives.record hw hphase)).send _ _
  | wokeUp hw hphase => exact h.relive _ _ (h.lives.settle hw (.inr hphase) (by simp))
  | stayDormant hw hphase => exact h.relive _ _ (h.lives.settle hw (.inl hphase) (by simp))
  | sendOther done hev => exact h.send _ done
  | write hc hsent => exact h.bookkeep _ _ _ _ _

/-- An engine at the end of its boot, with whatever the catalog restored. -/
structure Booted (e : Engine D) : Prop where
  related : e.st.Related
  minted : ∀ id, e.st.shapes.get? id ≠ none → e.Minted id
  lives : ∀ id life, e.lives.get? id = some life →
    e.Minted id ∧ (life = .active ∨ ∃ parked, life = .dormant parked)
  steady : ∀ id rec, e.st.shapes.get? id = some rec → rec.aggregate = true → e.Settled id
  idle : e.wakes = [] ∧ e.requests = [] ∧ e.promised = []

lemma base_booted (h : e.Booted) : e.Base := by
  obtain ⟨hwakes,hrequests,-⟩ := h.idle
  refine ⟨h.related.toSigned,h.minted,⟨fun id life hl => ?_,fun j w hw => ?_,h.steady⟩,fun k r hr => ?_,
    fun k k' r r' hr => ?_⟩
  · obtain ⟨hminted,hlife⟩ := h.lives id life hl
    refine ⟨hminted,fun resume j hre => ?_⟩
    rcases hlife with rfl | ⟨parked,rfl⟩ <;> cases hre
  · simp [hwakes] at hw
  · simp [hrequests] at hr
  · simp [hrequests] at hr

end

/-- An engine on an empty store. -/
def fresh : Engine Unit :=
  ⟨.init,.empty,fun _ => none,[],[],[],.spawn,[],[]⟩

lemma fresh_booted : fresh.Booted where
  related := .init
  minted := fun _ h => absurd rfl h
  lives := fun _ _ h => nomatch h
  steady := fun _ _ h => nomatch h
  idle := ⟨rfl,rfl,rfl⟩

end Engine
end ElectricCircuits
