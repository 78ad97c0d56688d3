import ElectricCircuits.Subquery.Displays

/-! The steps of a run of a view, each as a step of the displays of all rows; and what follows for whole runs: a view
with nothing left to do shows its table, and none ever shows a row older than what was processed. -/
namespace ElectricCircuits
namespace Site
variable {β : Type} {S : Site β} {w : World β} {k : String} {slack : List (Option Work)}

lemma mem_displayWork {n : Option ℕ} {x : Option Work} : x ∈ (S.display k slack w n).work ↔
    (∃ y ∈ openWork w.work w.walks, x = some y) ∨ x ∈ slack := by
  simp [display,eq_comm]

lemma Good.commit (h : S.Good slack w) (hlt : w.committed < S.log.length) :
    S.Good slack { w with committed := w.committed+1 } := by
  have hsub : ∀ e ∈ S.log.drop (w.committed+1), e ∈ S.log.drop w.committed := by
    intro e he
    rw [← List.drop_drop] at he
    exact List.mem_of_mem_drop he
  refine ⟨Nat.le_succ_of_le h.le,h.closed,fun e he => h.future e (hsub e he),h.walks,fun k => ?_⟩
  obtain ⟨n,hn,hs⟩ := h.keys k
  refine ⟨n,hn,?_⟩
  obtain ⟨e,he⟩ : ∃ e, S.log[w.committed]? = some e := ⟨_,List.getElem?_eq_getElem hlt⟩
  have htake : S.log.take (w.committed+1) = S.log.take w.committed ++ [e] := by
    rw [List.take_add_one,he]
    rfl
  cases hw : e.write S.ts k with
  | none =>
    have hsame : S.display k slack { w with committed := w.committed+1 } n = S.display k slack w n := by
      simp [display,htake,writes_cons,hw]
    rw [hsame]
    exact hs
  | some r =>
    have hnext : S.display k slack { w with committed := w.committed+1 } n =
        { S.display k slack w n with committed := (S.display k slack w n).committed+1 } := by
      simp [display,htake,writes_cons,hw]
    rw [hnext]
    exact hs.commit

/-- The sets turn; the work that there was is kept, and their flips are among it. -/
lemma turn_display {sets : NodeSets} {work : List Work} (hkept : Work.Covers S.pred S.equals w.work work)
    (hflips : none ∈ slack ∨ S.pred.Finds S.equals ∧ Flips w.sets sets work) {n : Option ℕ}
    (h : (S.display k slack w n).Sound (S.source k)) :
    (S.display k slack { w with sets := sets, work := work } n).Sound (S.source k) := by
  refine h.turn sets ((openWork work w.walks).map some ++ slack) ?_ ?_
  · intro x hx r hr
    rcases mem_displayWork.mp hx with ⟨x,hopen,rfl⟩ | hx
    · rcases mem_openWork.mp hopen with hx | hx
      · obtain ⟨y,hy,hasks⟩ := hkept x hx r hr
        have hmem : y ∈ openWork work w.walks := mem_openWork.mpr (.inl hy)
        exact ⟨some y,List.mem_append_left _ (List.mem_map_of_mem hmem),hasks⟩
      · have hmem : x ∈ openWork work w.walks := mem_openWork.mpr (.inr hx)
        exact ⟨some x,List.mem_append_left _ (List.mem_map_of_mem hmem),hr⟩
    · exact ⟨x,List.mem_append_right _ hx,hr⟩
  · intro r hr
    rcases hflips with hnone | ⟨hfinds,hflips⟩
    · exact ⟨none,List.mem_append_right _ hnone,rfl⟩
    · obtain ⟨x,hx,hasks⟩ := turned hfinds hflips r hr
      have hmem : x ∈ openWork work w.walks := mem_openWork.mpr (.inl hx)
      exact ⟨some x,List.mem_append_left _ (List.mem_map_of_mem hmem),hasks⟩

lemma Good.turn (h : S.Good slack w) (hfinds : none ∈ slack ∨ S.pred.Finds S.equals) {sets : NodeSets}
    {work : List Work} (hkept : Work.Covers S.pred S.equals w.work work) (hflips : Flips w.sets sets work) :
    S.Good slack { w with sets := sets, work := work } := by
  refine ⟨h.le,h.closed,h.future,h.walks,fun k => ?_⟩
  obtain ⟨n,hn,hs⟩ := h.keys k
  exact ⟨n,hn,turn_display hkept (hfinds.imp_right fun hf => ⟨hf,hflips⟩) hs⟩

section
variable {e : RowEvent} {n : Option ℕ}

/-- A change that the backfill saw, or of another row, decides nothing. -/
lemma stutter_display (h : S.Good slack w) (he : S.log[w.processed]? = some e)
    (hnone : S.gate.sees e = true ∨ e.write S.ts k = none) :
    S.display k slack { w with processed := w.processed+1 } n = S.display k slack w n := by
  simp only [display,((decided_succ h.closed he).1 hnone)]

/-- A change of the row is the next version to decide. -/
lemma next_display (h : S.Good slack w) (he : S.log[w.processed]? = some e) (hlt : w.processed < w.committed)
    {r : Option Row} (hsees : S.gate.sees e = false) (hw : e.write S.ts k = some r) :
    (S.display k slack w n).decided = (writes S.ts k (S.log.take w.processed)).length ∧
    (S.display k slack w n).decided < (S.display k slack w n).committed ∧
    S.display k slack { w with processed := w.processed+1 } n =
      { S.display k slack w n with decided := (S.display k slack w n).decided+1 } := by
  obtain ⟨hnow,hnext⟩ := (decided_succ h.closed he).2 r hsees hw
  have hle : (writes S.ts k (S.log.take (w.processed+1))).length ≤ (writes S.ts k (S.log.take w.committed)).length :=
    ((List.take_sublist_take_left hlt).filterMap _).length_le
  have htake : S.log.take (w.processed+1) = S.log.take w.processed ++ [e] := by
    rw [List.take_add_one,he]
    rfl
  rw [htake,writes_append,writes_cons,hw,writes_nil,List.append_nil,List.length_append] at hle
  refine ⟨by simp only [display,hnow],?_,?_⟩
  · simp only [display,hnow]
    exact hle
  · simp only [display,hnow,hnext,List.length_append,List.length_singleton]

end

lemma length_reads (k : String) (vs : List FlipWalk) :
    (S.reads k vs).length = (vs.filterMap FlipWalk.reading).length := by
  simp [reads]

lemma Good.decide (h : S.Good slack w) {e : RowEvent} (hlt : w.processed < w.committed)
    (he : S.log[w.processed]? = some e) (hsees : S.gate.sees e = false) : S.Good slack { w with
      processed := w.processed+1
      recent := fun k => if 0 < w.inflight ∧ e.write S.ts k ≠ none then some e.stamp else w.recent k
      shown := S.written w e } := by
  refine ⟨hlt,h.closed,h.future,h.walks,fun k => ?_⟩
  obtain ⟨n,hn,hs⟩ := h.keys k
  cases hw : e.write S.ts k with
  | none =>
    refine ⟨n,by simpa [hw] using hn,?_⟩
    have hsame := (stutter_display (n := n) h he (.inr hw)).symm ▸ hs
    simp only [display,written,hw]
    exact hsame
  | some r =>
    obtain ⟨hdecided,hnext,hstep⟩ := next_display (n := n) h he hlt hsees hw
    refine ⟨if (S.reads k w.walks).isEmpty then n else some ((S.display k slack w n).decided+1),?_,?_⟩
    · by_cases hidle : (S.reads k w.walks).length = 0
      · have hempty : (S.reads k w.walks).isEmpty = true := by simpa using hidle
        rw [length_reads] at hidle
        simpa [World.inflight,hempty,hidle] using hn
      · have hempty : (S.reads k w.walks).isEmpty = false := by simpa using hidle
        rw [length_reads] at hidle
        obtain ⟨hlog,he'⟩ := List.getElem?_eq_some_iff.mp he
        have hsplit : S.log = S.log.take w.processed ++ e :: S.log.drop (w.processed+1) := by
          rw [← he',← List.drop_eq_getElem_cons hlog,List.take_append_drop]
        dsimp only
        rw [if_pos ⟨Nat.pos_of_ne_zero hidle,by simp [hw]⟩,if_neg (by simp [hempty]),hdecided]
        exact ⟨_,e,_,hsplit,by simp [hw],rfl,rfl⟩
    · have hshown : r.bind (S.view w.sets) = (S.source k).shows w.sets ((S.display k slack w n).decided+1) := by
        rw [hdecided,shows_write he hw]
        rfl
      have hsame := (next_display (n := if (S.reads k w.walks).isEmpty then n
        else some ((S.display k slack w n).decided+1)) h he hlt hsees hw).2.2
      simp only [display,written,hw,hshown] at hsame ⊢
      have hdecide := hs.decide hnext
      simp only [display] at hdecide
      rw [show (writes S.ts k (S.decided (w.processed+1))).length = (writes S.ts k (S.decided w.processed)).length+1
        from congrArg LateReads.Display.decided hsame]
      exact hdecide

lemma Good.pass (h : S.Good slack w) (hv : S.Valid) {e : RowEvent} (hlt : w.processed < w.committed)
    (he : S.log[w.processed]? = some e) (hpass : S.gate.sees e = true ∨
      ∀ r, e.change.old = some r ∨ e.change.new = some r → ∀ sets, S.view sets r = none) :
    S.Good slack { w with processed := w.processed+1 } := by
  refine ⟨hlt,h.closed,h.future,h.walks,fun k => ?_⟩
  obtain ⟨n,hn,hs⟩ := h.keys k
  refine ⟨n,hn,?_⟩
  by_cases hnone : S.gate.sees e = true ∨ e.write S.ts k = none
  · exact (stutter_display (n := n) h he hnone).symm ▸ hs
  · rw [not_or,Bool.not_eq_true] at hnone
    obtain ⟨r,hw⟩ := Option.ne_none_iff_exists'.mp hnone.2
    obtain ⟨hdecided,hnext,hstep⟩ := next_display (n := n) h he hlt hnone.1 hw
    have himage := hpass.resolve_left (by simp [hnone.1])
    have hblank := blank (k := k) hv he hw himage
    rw [← hdecided] at hblank
    exact hstep.symm ▸ hs.pass hnext hblank

section
variable {x : Work} {q : Requery} {qs : List Requery} {ws ws' : List Work} {vs vs' : List FlipWalk}

lemma source_asks_requery (q : Requery) (r : Row) :
    (S.source k).asks (some (.requery q)) r = q.selects S.equals r :=
  @Work.asks_requery S.pred S.equals r q

lemma Good.take (h : S.Good slack w) (hw : w.work = ws ++ x :: ws') : S.Good slack { w with
    work := ws ++ ws', walks := w.walks ++ [⟨x,x.requeries S.pred,none⟩] } := by
  refine ⟨h.le,h.closed,h.future,?_,fun k => ?_⟩
  · rw [List.forall_mem_append,List.forall_mem_singleton]
    exact ⟨h.walks,fun q hq r hr => Work.asks_of_requeries hq hr,nofun⟩
  · have hreads : (w.walks ++ [(⟨x,x.requeries S.pred,none⟩ : FlipWalk)]).filterMap FlipWalk.reading =
        w.walks.filterMap FlipWalk.reading := by
      rw [List.filterMap_append]
      exact List.append_nil _
    obtain ⟨n,hn,hs⟩ := h.keys k
    refine ⟨n,hn,?_⟩
    have hturn := hs.turn w.sets
      ((openWork (ws ++ ws') (w.walks ++ [⟨x,x.requeries S.pred,none⟩])).map some ++ slack) ?_
      (fun r hr => absurd rfl hr)
    · rw [display,reads,hreads]
      exact hturn
    · -- the work that is taken is asked for by its reads
      intro y hy r hr
      rcases mem_displayWork.mp hy with ⟨y,hopen,rfl⟩ | hy
      · suffices hkept : ∃ z ∈ openWork (ws ++ ws') (w.walks ++ [⟨x,x.requeries S.pred,none⟩]),
            (S.source k).asks (some z) r = true by
          obtain ⟨z,hz,hasks⟩ := hkept
          exact ⟨some z,List.mem_append_left _ (List.mem_map_of_mem hz),hasks⟩
        simp only [mem_openWork,hw,List.mem_append,List.mem_cons] at hopen
        simp only [mem_openWork,List.mem_append,List.mem_singleton]
        rcases hopen with (hy | rfl | hy) | ⟨v,hv,q,hq,rfl⟩
        · exact ⟨y,.inl (.inl hy),hr⟩
        · obtain ⟨q,hq,hr⟩ := List.any_eq_true.mp hr
          exact ⟨.requery q,.inr ⟨_,.inr rfl,q,hq,rfl⟩,by rwa [source_asks_requery]⟩
        · exact ⟨y,.inl (.inr hy),hr⟩
        · exact ⟨.requery q,.inr ⟨v,.inl hv,q,hq,rfl⟩,hr⟩
      · exact ⟨y,List.mem_append_right _ hy,hr⟩

/-- The work that is not begun, around one walk. -/
lemma openWork_split (work : List Work) (v : FlipWalk) : (openWork work (vs ++ v :: vs')).map some ++ slack =
    (work ++ vs.flatMap fun v => v.pending.map Work.requery).map some ++ ((v.pending.map Work.requery).map some ++
      ((vs'.flatMap fun v => v.pending.map Work.requery).map some ++ slack)) := by
  simp [openWork]

lemma forall_walks {P : FlipWalk → Prop} {v v' : FlipWalk} (h : ∀ v ∈ w.walks, P v) (hw : w.walks = vs ++ v :: vs')
    (hv : P v → P v') : ∀ u ∈ vs ++ v' :: vs', P u := by
  rw [hw] at h
  simp only [List.forall_mem_append,List.forall_mem_cons] at h ⊢
  exact ⟨h.1,hv h.2.1,h.2.2⟩

lemma Good.begin (h : S.Good slack w) (hw : w.walks = vs ++ ⟨x,q :: qs,none⟩ :: vs') :
    S.Good slack { w with walks := vs ++ ⟨x,q :: qs,some none⟩ :: vs' } := by
  refine ⟨h.le,h.closed,h.future,?_,fun k => ?_⟩
  · exact forall_walks h.walks hw fun hv => ⟨hv.asks,nofun⟩
  · obtain ⟨n,hn,hs⟩ := h.keys k
    refine ⟨n,hn,?_⟩
    rw [display,hw,openWork_split,reads_idle] at hs
    rw [display,openWork_split,reads_begun]
    exact hs.begin rfl rfl

lemma Good.read (h : S.Good slack w) (hv : S.Valid) {rows : List Row} {gate : SnapshotGate}
    (hw : w.walks = vs ++ ⟨x,q :: qs,some none⟩ :: vs') (hgate : S.Snapshot w.processed w.committed gate.sees)
    (hrows : S.Reads q gate.sees rows) :
    S.Good slack { w with walks := vs ++ ⟨x,q :: qs,some (some (rows,gate))⟩ :: vs' } := by
  refine ⟨h.le,h.closed,h.future,?_,fun k => ?_⟩
  · refine forall_walks h.walks hw fun hv => ⟨hv.asks,fun rows' gate' hr => ?_⟩
    obtain ⟨rfl,rfl⟩ := Prod.mk.inj (Option.some.inj (Option.some.inj hr))
    refine ⟨hgate.closed,fun q' hq => ?_⟩
    obtain rfl := Option.some.inj hq
    exact hrows
  · obtain ⟨n,hn,hs⟩ := h.keys k
    refine ⟨n,hn,?_⟩
    rw [display,hw,openWork_split,reads_begun] at hs
    rw [display,openWork_split,reads_begun]
    refine hs.read rfl (hgate.decided_le k) (le_committed hgate.future k) fun r hr hasks => ?_
    have hprefix := writes_filter_prefix gate.sees (hgate.closed.at_key k (List.Sublist.refl S.log))
    rw [source_image,version_take hprefix] at hr
    exact hrows.candidate_isSome hv hr (by rwa [source_asks_requery] at hasks)

/-- The last read to end forgets the decisions. -/
lemma Records.close {recent : String → Option CommitStamp} {n : Option ℕ} (h : S.Records k (recent k) n)
    (vs : List FlipWalk) : S.Records k (closing vs recent k) (if (S.reads k vs).isEmpty then none else n) := by
  rw [closing,← length_reads (S := S) k]
  cases S.reads k vs with
  | nil => exact trivial
  | cons r rs => exact h

lemma Good.fail (h : S.Good slack w) (hw : w.walks = vs ++ ⟨x,q :: qs,some none⟩ :: vs') : S.Good slack { w with
    work := x :: w.work, walks := vs ++ vs', recent := closing (vs ++ vs') w.recent } := by
  refine ⟨h.le,h.closed,h.future,?_,fun k => ?_⟩
  · have hwalks := h.walks
    rw [hw] at hwalks
    simp only [List.forall_mem_append,List.forall_mem_cons] at hwalks ⊢
    exact ⟨hwalks.1,hwalks.2.2⟩
  · have hasks := (h.walks ⟨x,q :: qs,some none⟩ (hw ▸ List.mem_append_right _ List.mem_cons_self)).asks
    obtain ⟨n,hn,hs⟩ := h.keys k
    refine ⟨_,hn.close (vs ++ vs'),?_⟩
    have hfail := hs.fail (by rw [display,hw]; exact reads_begun)
    have hturn := hfail.turn w.sets ((openWork (x :: w.work) (vs ++ vs')).map some ++ slack) ?_
      (fun r hr => absurd rfl hr)
    · rw [display,reads_drop]
      exact hturn
    · -- what is left of the walk is asked for by its work, which goes back
      intro y hy r hr
      have hin : ∀ {z}, z ∈ openWork (x :: w.work) (vs ++ vs') → (S.source k).asks (some z) r = true →
          ∃ z ∈ (openWork (x :: w.work) (vs ++ vs')).map some ++ slack, (S.source k).asks z r = true :=
        fun hz hasks => ⟨_,List.mem_append_left _ (List.mem_map_of_mem hz),hasks⟩
      have hself : ∀ q' ∈ q :: qs, q'.selects S.equals r = true →
          ∃ z ∈ (openWork (x :: w.work) (vs ++ vs')).map some ++ slack, (S.source k).asks z r = true :=
        fun q' hq hr => hin (mem_openWork.mpr (.inl List.mem_cons_self)) (hasks q' hq r hr)
      rcases List.mem_cons.mp hy with rfl | hy
      · exact hself q List.mem_cons_self (by rwa [source_asks_requery] at hr)
      · rcases mem_displayWork.mp hy with ⟨y,hopen,rfl⟩ | hy
        · rcases mem_openWork.mp hopen with hy | ⟨v,hv,q',hq,rfl⟩
          · exact hin (mem_openWork.mpr (.inl (List.mem_cons_of_mem _ hy))) hr
          · rw [hw,List.mem_append,List.mem_cons,or_left_comm,← List.mem_append] at hv
            rcases hv with rfl | hv
            · exact hself q' (List.mem_cons_of_mem _ hq) (by rwa [source_asks_requery] at hr)
            · exact hin (mem_openWork.mpr (.inr ⟨v,hv,q',hq,rfl⟩)) hr
        · exact ⟨y,List.mem_append_right _ hy,hr⟩

/-- A query-back leaves a row out exactly if a later version of it than it read was decided meanwhile. -/
lemma Records.keeps {stamp : Option CommitStamp} {n : Option ℕ} (h : S.Records k stamp n) {gate : SnapshotGate}
    (hclosed : S.Closed gate.sees) :
    gate.keeps stamp = !n.any ((writes S.ts k (S.log.filter gate.sees)).length < ·) := by
  cases stamp with
  | none =>
    cases n with
    | none => rfl
    | some n => exact h.elim
  | some stamp =>
    cases n with
    | none => exact h.elim
    | some n =>
      obtain ⟨pre,e,post,hlog,he,rfl,rfl⟩ := h
      have hiff := sees_iff_count (hlog ▸ hclosed.at_key k (List.Sublist.refl S.log)) he
      rw [← hlog] at hiff
      rw [Bool.eq_iff_iff]
      refine Iff.trans hiff ?_
      simp only [Option.any_some,Bool.not_eq_true',decide_eq_false_iff_not]
      omega

/-- What a read shows of a row when it lands. -/
lemma Reads.landed (hv : S.Valid) {rows : List Row} {gate : SnapshotGate} (hreads : S.Reads q gate.sees rows)
    (hclosed : S.Closed gate.sees) {n : Option ℕ} (hn : S.Records k (w.recent k) n) : S.landed w rows gate k =
      (S.display k slack w n).landed (S.source k) (writes S.ts k (S.log.filter gate.sees)).length
        (candidateAt S.ts (rows.map (·,true)) k).isSome := by
  have hprefix := writes_filter_prefix gate.sees (hclosed.at_key k (List.Sublist.refl S.log))
  rw [Site.landed,hn.keeps hclosed,LateReads.Display.landed,LateReads.Source.shows,source_image,
    version_take hprefix,display]
  cases hc : candidateAt S.ts (rows.map (·,true)) k with
  | none => cases n.any ((writes S.ts k (S.log.filter gate.sees)).length < ·) <;> rfl
  | some c =>
    obtain ⟨r,rfl,hat⟩ := hreads.candidate hv hc
    rw [hat]
    cases n.any ((writes S.ts k (S.log.filter gate.sees)).length < ·) <;> rfl

lemma Good.land (h : S.Good slack w) (hv : S.Valid) {rows : List Row} {gate : SnapshotGate}
    (hw : w.walks = vs ++ ⟨x,q :: qs,some (some (rows,gate))⟩ :: vs') : S.Good slack { w with
      walks := vs ++ ⟨x,qs,none⟩ :: vs'
      recent := closing (vs ++ ⟨x,qs,none⟩ :: vs') w.recent
      shown := S.landed w rows gate } := by
  have hfine := h.walks ⟨x,q :: qs,some (some (rows,gate))⟩ (hw ▸ List.mem_append_right _ List.mem_cons_self)
  obtain ⟨hclosed,hreads⟩ := hfine.read rows gate rfl
  have hreads := hreads q rfl
  refine ⟨h.le,h.closed,h.future,?_,fun k => ?_⟩
  · exact forall_walks h.walks hw fun hv => ⟨fun q' hq => hv.asks q' (List.mem_cons_of_mem _ hq),nofun⟩
  · obtain ⟨n,hn,hs⟩ := h.keys k
    refine ⟨_,hn.close (vs ++ ⟨x,qs,none⟩ :: vs'),?_⟩
    have hland := hs.land (by rw [display,hw]; exact reads_begun)
    rw [display,openWork_split,reads_idle]
    dsimp only
    have hsame := @Reads.landed _ S w k slack _ hv rows gate hreads hclosed n hn
    rw [hsame]
    rw [display,hw,openWork_split] at hland
    exact hland

lemma Good.done (h : S.Good slack w) (hw : w.walks = vs ++ ⟨x,[],none⟩ :: vs') :
    S.Good slack { w with walks := vs ++ vs' } := by
  refine ⟨h.le,h.closed,h.future,?_,fun k => ?_⟩
  · have hwalks := h.walks
    rw [hw] at hwalks
    simp only [List.forall_mem_append,List.forall_mem_cons] at hwalks ⊢
    exact ⟨hwalks.1,hwalks.2.2⟩
  · obtain ⟨n,hn,hs⟩ := h.keys k
    refine ⟨n,hn,?_⟩
    have hsame : S.display k slack { w with walks := vs ++ vs' } n = S.display k slack w n := by
      simp [display,openWork,reads,hw,FlipWalk.pending,FlipWalk.reading,List.filterMap_cons]
    rw [hsame]
    exact hs

end

/-- Each step keeps what holds of a run. -/
theorem Step.good {w' : World β} (hstep : S.Step w w') (hv : S.Valid)
    (hfinds : none ∈ slack ∨ S.pred.Finds S.equals) (h : S.Good slack w) : S.Good slack w' := by
  cases hstep with
  | commit hlt => exact h.commit hlt
  | decide e hlt he hsees => exact h.decide hlt he hsees
  | pass e hlt he hpass => exact h.pass hv hlt he hpass
  | turn sets work hkept hflips => exact h.turn hfinds hkept hflips
  | take x ws ws' hw => exact h.take hw
  | begin x q qs vs vs' hw => exact h.begin hw
  | read x q qs vs vs' rows gate saw hw hgate hsaw hrows =>
    exact h.read hv hw (hgate.snapshot hsaw) (hgate.reads hrows)
  | fail x q qs vs vs' hw => exact h.fail hw
  | land x q qs vs vs' rows gate hw => exact h.land hv hw
  | done x vs vs' hw => exact h.done hw

theorem Good.run {w' : World β} (h : S.Good slack w) (hv : S.Valid) (hfinds : none ∈ slack ∨ S.pred.Finds S.equals)
    (hrun : Relation.ReflTransGen S.Step w w') : S.Good slack w' := by
  induction hrun with
  | refl => exact h
  | tail _ hstep ih => exact hstep.good hv hfinds ih

/-- A view that was just filled from a snapshot that sees what is processed: it shows the rows that match as some sets
stood. -/
structure Start (S : Site β) (sets : NodeSets) (w : World β) : Prop where
  le : w.processed ≤ w.committed
  past : ∀ e ∈ S.log.take w.processed, S.gate.sees e = true
  future : ∀ e ∈ S.log.drop w.committed, S.gate.sees e = false
  closed : S.Closed S.gate.sees
  walks : w.walks = []
  recent : ∀ k, w.recent k = none
  filled : ∀ k, w.shown k = (rowAt S.ts S.base k (S.log.filter S.gate.sees)).bind (S.view sets)

/-- A start is good where what the sets have come to since is among the work, or nothing is said of it. -/
lemma Start.good {sets : NodeSets} (h : S.Start sets w)
    (hflips : none ∈ slack ∨ S.pred.Finds S.equals ∧ Flips sets w.sets w.work) : S.Good slack w := by
  refine ⟨h.le,h.closed,h.future,by rw [h.walks]; exact nofun,fun k => ⟨none,by rw [h.recent]; trivial,?_⟩⟩
  -- at first the display is that of the sets at the backfill, and then they turn
  have hdecided : S.decided w.processed = S.log.filter S.gate.sees := by
    have hpast : (S.log.take w.processed).filter S.gate.sees = S.log.take w.processed :=
      List.filter_eq_self.mpr h.past
    conv_rhs => rw [← List.take_append_drop w.processed S.log,List.filter_append,hpast]
    rfl
  have hprefix := writes_filter_prefix S.gate.sees (h.closed.at_key k (List.Sublist.refl S.log))
  have hfirst : (S.display k slack { w with sets := sets, work := [] } none).Sound (S.source k) := by
    refine ⟨?_,fun _ => rfl,nofun,?_,?_,?_,.now ?_⟩
    · simp only [display,hdecided]
      exact le_committed h.future k
    · simp [display,reads,h.walks]
    · simp [display,reads,h.walks]
    · simp [display,reads,h.walks]
    · simp only [display]
      rw [h.filled k,hdecided,LateReads.Source.shows,source_image,version_take hprefix]
      rfl
  exact turn_display (w := { w with sets := sets, work := [] }) (fun x hx => absurd hx List.not_mem_nil) hflips hfirst

/-- With nothing left to process, to walk or to hand in, a view shows of each row what the sets say. -/
theorem Good.shown_of_quiet (h : S.Good [] w) (hprocessed : w.processed = w.committed) (hwork : w.work = [])
    (hwalks : w.walks = []) (k : String) :
    w.shown k = (rowAt S.ts S.base k (S.log.take w.committed)).bind (S.view w.sets) := by
  obtain ⟨n,-,hs⟩ := h.keys k
  have hdecided : S.decided w.processed = S.log.take w.committed := by
    have hnil : (S.log.drop w.committed).filter S.gate.sees = [] := by
      rw [List.filter_eq_nil_iff]
      intro e he
      simp [h.future e he]
    rw [decided,hprocessed,hnil,List.append_nil]
  have hquiet := hs.shown_of_quiet (congrArg (fun es => (writes S.ts k es).length) hdecided)
    (by simp [display,openWork,hwork,hwalks]) (by simp [display,reads,hwalks])
  exact hquiet.trans (shows_take w.committed w.sets)

/-- The changes between two moments pass through every count of versions in between. -/
lemma exists_take {p c m : ℕ} (hle : p ≤ c) (hp : (writes S.ts k (S.log.take p)).length ≤ m)
    (hc : m ≤ (writes S.ts k (S.log.take c)).length) :
    ∃ n, p ≤ n ∧ n ≤ c ∧ (writes S.ts k (S.log.take n)).length = m := by
  induction c, hle using Nat.le_induction with
  | base => exact ⟨p,Nat.le_refl p,Nat.le_refl p,Nat.le_antisymm hp hc⟩
  | succ c hle ih =>
    by_cases hm : m ≤ (writes S.ts k (S.log.take c)).length
    · obtain ⟨n,hpn,hnc,hn⟩ := ih hm
      exact ⟨n,hpn,Nat.le_succ_of_le hnc,hn⟩
    · refine ⟨c+1,Nat.le_succ_of_le hle,Nat.le_refl _,Nat.le_antisymm ?_ hc⟩
      have hstep : (writes S.ts k (S.log.take (c+1))).length ≤ (writes S.ts k (S.log.take c)).length+1 := by
        rw [List.take_add_one,writes_append,List.length_append]
        refine Nat.add_le_add_left ?_ _
        cases S.log[c]? with
        | none => exact Nat.zero_le _
        | some e => exact List.length_filterMap_le _ _
      omega

/-- What is shown under a key is the row that the table had for it at some moment since the last change that was
processed. -/
theorem Good.shown_of_moment (h : S.Good slack w) {b : β} (hb : w.shown k = some b) :
    ∃ n r, w.processed ≤ n ∧ n ≤ w.committed ∧ rowAt S.ts S.base k (S.log.take n) = some r ∧ b = S.image r := by
  obtain ⟨n,-,hs⟩ := h.keys k
  obtain ⟨sets,m,hdecided,hcommitted,hshown⟩ := hs.shown_of_version
  have hle : (writes S.ts k (S.log.take w.processed)).length ≤ m :=
    Nat.le_trans ((List.sublist_append_left _ _).filterMap _).length_le hdecided
  obtain ⟨n,hpn,hnc,hn⟩ := exists_take h.le hle hcommitted
  have hb := hb.symm.trans (hshown.trans (hn ▸ shows_take n sets))
  obtain ⟨r,hr,hview⟩ := Option.bind_eq_some_iff.mp hb.symm
  refine ⟨n,r,hpn,hnc,hr,?_⟩
  rw [source] at hview
  dsimp only [view] at hview
  split_ifs at hview
  exact (Option.some.inj hview).symm

end Site
end ElectricCircuits
