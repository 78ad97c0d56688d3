import ElectricCircuits.Sequencer.Intake
import Mathlib.Data.Finset.Sort

/-! Per-transaction emission over every way of cutting a log into pages. A run that is not at its end
when another transaction follows must end its page, and may not take a whole commit with it when it is
dropped; then, and only then, the flushes are the commits of the log one by one. -/
namespace ElectricCircuits
open Replay

/-- An envelope that another transaction follows is the last of its own. -/
def Orderly (envs : List Envelope) : Prop :=
  envs.IsChain fun a b => a.headers.last = some true ∨ a.runKey = b.runKey

instance (envs : List Envelope) : Decidable (Orderly envs) :=
  inferInstanceAs (Decidable (List.IsChain _ _))

def EndsOnMarker (envs : List Envelope) : Prop := ∀ e ∈ envs.getLast?, e.headers.last = some true

/-- The changes of a page, without control envelopes. -/
def changesOf (page : List Envelope) : List Envelope := page.filter (!isControl ·)

/-- The loop over the pages of one segment. -/
def runPages (s : LoopState) : List (List Envelope) → LoopState × List Flush
  | [] => (s,[])
  | page :: pages =>
    let r := readPage s ⟨page,some (s.pos.offset+page.length),false⟩ none
    ((runPages r.1 pages).1,r.2 ++ (runPages r.1 pages).2)

/-- What processing one envelope does to the executors, and what it stages for the shape streams. -/
structure Executor (σ α : Type*) where
  apply : σ → Envelope → σ × List α

/-- A whole commit that a run holds and the mark does not cover comes again in `X`. -/
def MarksReturn (mark : Option (ℕ ×ₗ ℕ)) (held X : List Envelope) : Prop :=
  ∀ e ∈ held, e.headers.last = some true → ∀ p ∈ e.position, Above mark p → e ∈ X

/-- In every page, with the held run re-attached, an envelope that another transaction follows is the
last of its own; and a run that is dropped, or left at the end, loses no commit that it has in full. -/
def OrderlyCut (s : LoopState) : List (List Envelope) → Prop
  | [] => MarksReturn s.highwater s.held []
  | page :: pages => Orderly (reattach s.held (changesOf page)).1 ∧
      (Dropped s.held (changesOf page) →
        MarksReturn s.highwater s.held (changesOf (page :: pages).flatten)) ∧
      OrderlyCut (readPage s ⟨page,some (s.pos.offset+page.length),false⟩ none).1 pages

namespace Executor
variable {σ α : Type*} (E : Executor σ α)

/-- The appends of one transaction. -/
def stage (x : σ) : List Envelope → σ × List α
  | [] => (x,[])
  | e :: es => ((stage (E.apply x e).1 es).1,(E.apply x e).2 ++ (stage (E.apply x e).1 es).2)

/-- The flushes of a sequence of transactions. -/
def flushes (x : σ) : List (List Envelope) → List (List α)
  | [] => []
  | fresh :: rest => (E.stage x fresh).2 :: flushes (E.stage x fresh).1 rest

/-- The flushes that append something. -/
def emitted (x : σ) (fs : List Flush) : List (List α) :=
  (E.flushes x (fs.map (·.fresh))).filter (!·.isEmpty)

/-- Transactions of which nothing is new append nothing. -/
lemma emitted_eq (x : σ) (fs : List Flush) :
    E.emitted x fs = (E.flushes x ((fs.map (·.fresh)).filter (!·.isEmpty))).filter (!·.isEmpty) := by
  rw [emitted]
  induction fs.map (·.fresh) generalizing x with
  | nil => rfl
  | cons fresh rest ih =>
    cases fresh with
    | nil => simpa [flushes,stage] using ih x
    | cons e es =>
      simp only [flushes,List.filter_cons,List.isEmpty_cons,Bool.not_false,if_true]
      rw [ih]

end Executor

section
variable {cs : Commits} {ds : List Delivery} {L A page R held : List Envelope}
  {Z : Set (ℕ ×ₗ ℕ)}

lemma Orderly.of_run {envs : List Envelope} {k : Option String × Option String}
    (h : ∀ e ∈ envs, e.runKey = k) : Orderly envs := by
  induction envs with
  | nil => exact List.isChain_nil
  | cons e es ih =>
    refine List.isChain_cons.mpr ⟨fun b hb => .inr ?_,ih fun x hx => h x (List.mem_cons_of_mem e hx)⟩
    rw [h e List.mem_cons_self,h b (List.mem_cons_of_mem e (List.mem_of_mem_head? hb))]

/-- In an orderly batch that ends on the marker every run does. -/
lemma runs_endOnMarker {runs : List (List Envelope)} (hne : [] ∉ runs)
    (hsplit : runs.IsChain fun a b => ∃ ha hb, (a.getLast ha).runKey ≠ (b.head hb).runKey)
    (ho : Orderly runs.flatten) (hlast : EndsOnMarker runs.flatten) :
    ∀ run ∈ runs, EndsOnMarker run := by
  induction runs with
  | nil => simp
  | cons run runs ih =>
    simp only [List.mem_cons,not_or] at hne
    rw [List.flatten_cons] at ho hlast
    obtain ⟨-,hrest,hjoin⟩ := List.isChain_append.mp ho
    obtain ⟨hnext,hsplit'⟩ := List.isChain_cons.mp hsplit
    cases runs with
    | nil =>
      intro r hr
      obtain rfl := List.mem_singleton.mp hr
      simpa using hlast
    | cons next runs =>
      obtain ⟨ha,hb,hk⟩ := hnext next rfl
      have hhead : next.head hb ∈ ((next :: runs).flatten).head? := by
        rw [List.flatten_cons,List.head?_append_of_ne_nil _ hb,List.head?_eq_some_head hb]
        rfl
      have hrun : EndsOnMarker run := by
        intro e he
        obtain ⟨_,rfl⟩ := List.mem_getLast?_eq_getLast he
        exact (hjoin _ he _ hhead).resolve_right hk
      have hflat : (next :: runs).flatten ≠ [] := by
        rw [List.flatten_cons]
        simp [hb]
      have hlast' : EndsOnMarker (next :: runs).flatten := by
        intro e he
        exact hlast e (by rwa [List.getLast?_append_of_ne_nil _ hflat])
      exact List.forall_mem_cons.mpr ⟨hrun,ih hne.2 hsplit' hrest hlast'⟩

/-- The runs of a batch are not empty and of one transaction each. -/
lemma run_of_mem_runsOf {envs run : List Envelope} (h : run ∈ runsOf envs) :
    run ≠ [] ∧ ∀ e ∈ run, ∀ e' ∈ run, e.runKey = e'.runKey := by
  refine ⟨List.ne_nil_of_mem_splitBy h,?_⟩
  have hchain := List.isChain_of_mem_splitBy h
  have hkeys : (run.map (·.runKey)).IsChain (· = ·) := by
    rw [List.isChain_map]
    exact hchain.imp fun a b hab => by simpa using hab
  have hpair := (List.isChain_iff_pairwise.mp hkeys).forall_of_forall fun _ _ => rfl
  exact fun e he e' he' => hpair (List.mem_map_of_mem he) (List.mem_map_of_mem he')

lemma run_of_mem_intake {run : List Envelope} (h : run ∈ (intake held page).runs) :
    run ≠ [] ∧ ∀ e ∈ run, ∀ e' ∈ run, e.runKey = e'.runKey := by
  simp only [intake] at h
  split at h <;> exact run_of_mem_runsOf h

/-- Runs that all end on the marker leave the page orderly. -/
theorem orderly_of_endsOnMarker
    (h : ∀ run ∈ (intake held page).runs, EndsOnMarker run) : Orderly (reattach held page).1 := by
  have hflat : ∀ runs : List (List Envelope), (∀ run ∈ runs, EndsOnMarker run) →
      (∀ run ∈ runs, ∀ e ∈ run, ∀ e' ∈ run, e.runKey = e'.runKey) → ∀ rest, Orderly rest →
      Orderly (runs.flatten ++ rest) := by
    intro runs
    induction runs with
    | nil => exact fun _ _ rest hrest => hrest
    | cons run runs ih =>
      intro hm hk rest hrest
      rw [List.flatten_cons,List.append_assoc]
      refine List.isChain_append.mpr ⟨?_,ih (fun r hr => hm r (List.mem_cons_of_mem run hr))
        (fun r hr => hk r (List.mem_cons_of_mem run hr)) rest hrest,
        fun e he _ _ => .inl (hm run List.mem_cons_self e he)⟩
      cases run with
      | nil => exact List.isChain_nil
      | cons e es => exact Orderly.of_run fun x hx => hk _ List.mem_cons_self x hx e List.mem_cons_self
  have hheld : Orderly (intake held page).held := by
    simp only [intake]
    split
    · rename_i cut hcut
      obtain ⟨last,-,-,-,hrun,-⟩ := unterminatedTail_eq_some hcut
      exact Orderly.of_run hrun
    · exact List.isChain_nil
  rw [← intake_append]
  exact hflat _ h (fun run hrun => (run_of_mem_intake hrun).2) _ hheld

/-- The runs that an orderly page leaves to process all end on the marker. -/
theorem intake_endsOnMarker (hS : Source L Z) (hL : L = A ++ (page ++ R)) (hH : Holding L A held)
    (horder : Orderly (reattach held page).1) :
    ∀ run ∈ (intake held page).runs, EndsOnMarker run := by
  have hsub := reattach_subset hL hH
  have hruns : ∀ envs : List Envelope, Orderly envs → EndsOnMarker envs →
      ∀ run ∈ runsOf envs, EndsOnMarker run := by
    intro envs ho hm
    refine runs_endOnMarker (List.nil_notMem_splitBy _ _) ?_ (by rwa [flatten_runsOf])
      (by rwa [flatten_runsOf])
    refine (List.isChain_getLast_head_splitBy _ envs).imp ?_
    rintro a b ⟨ha,hb,hk⟩
    exact ⟨ha,hb,by simpa using hk⟩
  simp only [intake]
  split
  · rename_i cut hcut
    obtain ⟨last,-,-,hdrop,hrun,hbefore⟩ := unterminatedTail_eq_some hcut
    rw [← List.take_append_drop cut (reattach held page).1] at horder
    obtain ⟨htake,-,hjoin⟩ := List.isChain_append.mp horder
    refine hruns _ htake fun e he => ?_
    obtain ⟨b,hb⟩ := Option.ne_none_iff_exists'.mp
      (mt List.head?_eq_none_iff.mp (List.ne_nil_of_mem (List.mem_of_getLast? hdrop)))
    refine (hjoin e he b hb).resolve_right ?_
    rw [hrun b (List.mem_of_mem_head? hb)]
    exact hbefore e he
  · rename_i hnone
    exact hruns _ horder (marked_of_unterminatedTail hnone fun e he => hS.stamped e (hsub he))

/-- A mark at the end of a commit, or none. -/
def Commits.Settled (cs : Commits) (mark : Option (ℕ ×ₗ ℕ)) : Prop :=
  ∀ h ∈ mark, ∃ i, 0 < (cs.commit i).size ∧ h = cs.at_ i ((cs.commit i).size-1)

/-- A settled mark covers all of a commit or nothing of it. -/
lemma Commits.Settled.above {mark : Option (ℕ ×ₗ ℕ)} (hm : cs.Settled mark) {i s : ℕ}
    (hs : s < (cs.commit i).size) (h : Above mark (cs.at_ i ((cs.commit i).size-1))) :
    Above mark (cs.at_ i s) := by
  cases mark with
  | none => trivial
  | some m =>
    have hi := Nat.zero_lt_of_lt hs
    obtain ⟨j,hj,rfl⟩ := hm m rfl
    rcases lt_trichotomy i j with hij | rfl | hij
    · exact absurd h (cs.at_lt_of_commit _ _ hij hi hj).asymm
    · exact absurd h (lt_irrefl _)
    · exact cs.at_lt_of_commit _ _ hij hj hi

/-- Every delivery writes something, and at most its commit. -/
lemma Commits.Produces.count {floor limit top : ℕ} (h : cs.Produces floor limit top ds) :
    ∀ d ∈ ds, 0 < d.count ∧ d.count ≤ (cs.commit d.commit).size := by
  induction h with
  | nil => simp
  | deliver _ _ hpos hsize _ ih => exact List.forall_mem_cons.mpr ⟨⟨hpos,hsize⟩,ih⟩
  | reset _ _ ih => exact ih

lemma map_range_getElem? {α : Type*} (xs : List α) :
    (List.range xs.length).map (xs[·]?) = xs.map some := by
  refine List.ext_getElem (by simp) fun i hi _ => ?_
  have hlt : i < xs.length := by simpa using hi
  simp [hlt]

/-- Envelopes of the log at the positions of a whole commit are that commit's. -/
lemma eq_envelopes {fresh : List Envelope} {i : ℕ} (hsub : fresh ⊆ cs.log ds)
    (hi : 0 < (cs.commit i).size) (hpos : fresh.filterMap Envelope.position =
      (List.range (cs.commit i).size).map (cs.at_ i)) : fresh = (cs.commit i).envelopes := by
  have hget : ∀ e ∈ fresh, ∃ s, e.position = some (cs.at_ i s) ∧
      (cs.commit i).envelopes[s]? = some e := by
    intro e he
    obtain ⟨d,-,hd⟩ := Commits.mem_log.mp (hsub he)
    obtain ⟨s,-,x,hx,rfl⟩ := Commits.mem_written.mp hd
    have hs : s < (cs.commit d.commit).size := (List.getElem?_eq_some_iff.mp hx).1
    have hmem : cs.at_ d.commit s ∈ (List.range (cs.commit i).size).map (cs.at_ i) := by
      rw [← hpos]
      exact List.mem_filterMap.mpr ⟨_,he,rfl⟩
    obtain ⟨s',-,hs'⟩ := List.mem_map.mp hmem
    have hlsn : lsnToU64 (cs.commit i).lsn = lsnToU64 (cs.commit d.commit).lsn :=
      congrArg (fun z => (ofLex z).1) hs'
    obtain rfl := cs.lsn_inj hi (Nat.zero_lt_of_lt hs) hlsn
    exact ⟨s,rfl,by simp [Commit.envelopes,hx]⟩
  have hmap : fresh.map some = (fresh.filterMap Envelope.position).map
      fun z => (cs.commit i).envelopes[(ofLex z).2]? := by
    clear hpos
    induction fresh with
    | nil => rfl
    | cons e es ih =>
      obtain ⟨s,hp,hs⟩ := hget e List.mem_cons_self
      have htail := ih (fun x hx => hsub (List.mem_cons_of_mem e hx))
        fun x hx => hget x (List.mem_cons_of_mem e hx)
      simp only [List.map_cons,List.filterMap_cons,hp,htail,List.cons.injEq,and_true]
      exact hs.symm
  apply List.map_injective_iff.mpr (Option.some_injective _)
  rw [hmap,hpos,List.map_map,← map_range_getElem?,Commit.length_envelopes]
  exact List.map_congr_left fun s _ => rfl

/-- A run that ends on the marker is new as a whole or not at all. -/
theorem run_whole (hlog : cs.Produces 0 0 0 ds) {mark : Option (ℕ ×ₗ ℕ)} {done : List (ℕ ×ₗ ℕ)} {run Y : List Envelope}
    (hsub : run ⊆ cs.log ds) (hne : run ≠ []) (hkey : ∀ e ∈ run, ∀ e' ∈ run, e.runKey = e'.runKey)
    (hend : EndsOnMarker run) (hm : cs.Settled mark)
    (ha : Ahead Envelope.position (cs.appended ds) mark (run ++ Y))
    (hd : Taken (cs.appended ds) mark done) :
    dedup Envelope.position mark run = (mark,[]) ∨ ∃ d ∈ ds, cs.Complete d ∧
      dedup Envelope.position mark run =
        (some (cs.at_ d.commit ((cs.commit d.commit).size-1)),(cs.commit d.commit).envelopes) := by
  obtain ⟨e,he⟩ := Option.ne_none_iff_exists'.mp (mt List.getLast?_eq_none_iff.mp hne)
  have hemem := List.mem_of_getLast? he
  obtain ⟨d,hdds,hed⟩ := Commits.mem_log.mp (hsub hemem)
  obtain ⟨seq,hcount,x,hx,rfl⟩ := Commits.mem_written.mp hed
  have hseq : seq+1 = (cs.commit d.commit).size := by
    have hmark := hend _ he
    simp only [Commit.stamp] at hmark
    by_contra hn
    rw [if_neg hn] at hmark
    cases hmark
  have hpos : 0 < (cs.commit d.commit).size := by omega
  have hcomplete : cs.Complete d := by
    have hle := (hlog.count d hdds).2
    rw [Commits.Complete]
    omega
  obtain rfl : seq = (cs.commit d.commit).size-1 := by omega
  -- the whole run is of this commit
  have hrun : ∀ e' ∈ run, ∃ s < (cs.commit d.commit).size, e'.position = some (cs.at_ d.commit s) := by
    intro e' he'
    obtain ⟨i,s,hs,hp,hk,-⟩ := Commits.stamps_of_mem_log (hsub he')
    have hki := (hk.symm.trans (hkey _ he' _ hemem)).trans (Commit.runKey_stamp _ _ _)
    obtain rfl := cs.lsn_inj (Nat.zero_lt_of_lt hs) hpos
      (congrArg lsnToU64 (Option.some.inj (Prod.ext_iff.mp hki).2))
    exact ⟨s,hs,hp⟩
  have hle : ∀ s < (cs.commit d.commit).size,
      cs.at_ d.commit s ≤ cs.at_ d.commit ((cs.commit d.commit).size-1) := by
    intro s hs
    rcases (show s ≤ (cs.commit d.commit).size-1 by omega).lt_or_eq with hlt | heq
    · exact (cs.at_lt_of_seq _ hlt).le
    · rw [heq]
  by_cases habove : Above mark (cs.at_ d.commit ((cs.commit d.commit).size-1))
  · right
    have hstamped : ∀ e' ∈ run, ∃ p, e'.position = some p := fun e' he' => by
      obtain ⟨s,-,hp⟩ := hrun e' he'
      exact ⟨_,hp⟩
    obtain ⟨-,htaken⟩ := dedup_spec hstamped ha hd
    set r := dedup Envelope.position mark run with hr
    have hnot : ¬Above r.1 (cs.at_ d.commit ((cs.commit d.commit).size-1)) :=
      not_above_of_mem hemem rfl
    have hfresh : ∀ p, p ∈ r.2.filterMap Envelope.position ↔
        p ∈ (List.range (cs.commit d.commit).size).map (cs.at_ d.commit) := by
      intro p
      simp only [List.mem_map,List.mem_range]
      constructor
      · intro hp
        obtain ⟨e',he',hpe⟩ := List.mem_filterMap.mp hp
        obtain ⟨s,hs,hps⟩ := hrun e' (dedup_subset run he')
        exact ⟨s,hs,Option.some.inj (hps.symm.trans hpe)⟩
      · rintro ⟨s,hs,rfl⟩
        have hz : cs.at_ d.commit s ∈ cs.appended ds :=
          ⟨d,hdds,hcomplete,s,by rw [hcomplete]; exact hs,rfl⟩
        have hcov := htaken.complete _ hz fun h => hnot (h.mono (hle s hs))
        exact (List.mem_append.mp hcov).resolve_left fun hin =>
          hd.covered _ hin (hm.above hs habove)
    have hsorted : ((List.range (cs.commit d.commit).size).map (cs.at_ d.commit)).Pairwise (· < ·) :=
      List.pairwise_map.mpr (List.pairwise_lt_range.imp fun h => cs.at_lt_of_seq _ h)
    have hps : r.2.filterMap Envelope.position =
        (List.range (cs.commit d.commit).size).map (cs.at_ d.commit) :=
      (List.pairwise_append.mp htaken.sorted).2.1.eq_of_mem_iff hsorted hfresh
    have hfreshsub : r.2 ⊆ cs.log ds := fun e' he' => hsub (dedup_subset run he')
    refine ⟨d,hdds,hcomplete,Prod.ext ?_ (eq_envelopes hfreshsub hpos hps)⟩
    rw [hr,dedup_mark,← hr,hps,List.getLast?_map,List.getLast?_range,if_neg hpos.ne']
    rfl
  · left
    refine dedup_covered fun e' he' => ?_
    obtain ⟨s,hs,hp⟩ := hrun e' he'
    exact ⟨_,hp,fun h => habove (h.mono (hle s hs))⟩

/-- What a flush may be: a run up to the end of its transaction, with a whole commit new or nothing. -/
def Commits.WholeFlush (cs : Commits) (ds : List Delivery) (f : Flush) : Prop :=
  EndsOnMarker f.run ∧
    (f.fresh = [] ∨ ∃ d ∈ ds, cs.Complete d ∧ f.fresh = (cs.commit d.commit).envelopes)

/-- What holds between two reads of an orderly cutting. -/
structure Between (cs : Commits) (ds : List Delivery) (mark : Option (ℕ ×ₗ ℕ))
    (fs : List Flush) (X : List Envelope) : Prop where
  settled : cs.Settled mark
  whole : ∀ f ∈ fs, cs.WholeFlush ds f
  ahead : Ahead Envelope.position (cs.appended ds) mark X
  marks : MarksReturn mark (cs.log ds) X
  taken : Taken (cs.appended ds) mark ((fs.flatMap (·.fresh)).filterMap Envelope.position)

/-- Processing the runs of a batch that all end on the marker. -/
lemma Between.runs (hlog : cs.Produces 0 0 0 ds) {mark : Option (ℕ ×ₗ ℕ)} {fs : List Flush}
    {runs : List (List Envelope)} {Y : List Envelope} (h : Between cs ds mark fs (runs.flatten ++ Y))
    (hsub : ∀ run ∈ runs, run ⊆ cs.log ds) (hne : ∀ run ∈ runs, run ≠ [])
    (hend : ∀ run ∈ runs, EndsOnMarker run)
    (hkey : ∀ run ∈ runs, ∀ e ∈ run, ∀ e' ∈ run, e.runKey = e'.runKey) :
    Between cs ds (processRuns mark runs).1 (fs ++ (processRuns mark runs).2) Y := by
  induction runs generalizing mark fs with
  | nil => simpa [processRuns] using h
  | cons run runs ih =>
    simp only [List.forall_mem_cons] at hsub hne hend hkey
    have ha := h.ahead
    have hmarks := h.marks
    rw [List.flatten_cons,List.append_assoc] at ha hmarks
    have hwhole := run_whole hlog hsub.1 hne.1 hkey.1 hend.1 h.settled ha h.taken
    obtain ⟨ha',ht'⟩ :=
      dedup_spec (fun e he => (Commits.source_log hlog).stamped e (hsub.1 he)) ha h.taken
    have hbetween : Between cs ds (dedup Envelope.position mark run).1
        (fs ++ [⟨run,(dedup Envelope.position mark run).2⟩]) (runs.flatten ++ Y) := by
      refine ⟨?_,?_,ha',?_,by simpa using ht'⟩
      · rcases hwhole with hw | ⟨d,hd,hc,hw⟩
        · rw [hw]
          exact h.settled
        · rw [hw]
          rintro _ ⟨rfl⟩
          exact ⟨d.commit,(hlog.count d hd).1.trans_le (hlog.count d hd).2,rfl⟩
      · intro f hf
        rcases List.mem_append.mp hf with hf | hf
        · exact h.whole f hf
        · obtain rfl := List.mem_singleton.mp hf
          refine ⟨hend.1,?_⟩
          rcases hwhole with hw | ⟨d,hd,hc,hw⟩
          · exact .inl (by rw [hw])
          · exact .inr ⟨d,hd,hc,by rw [hw]⟩
      · intro e he hm p hp hab
        refine (List.mem_append.mp (hmarks e he hm p hp (dedup_mark_mono hab))).resolve_left ?_
        exact fun hrun => not_above_of_mem hrun hp hab
    have hrest := ih hbetween hsub.2 hne.2 hend.2 hkey.2
    rw [List.append_assoc] at hrest
    exact hrest

/-- Re-attaching loses no whole commit, if dropping a run does not. -/
lemma MarksReturn.reattach {mark : Option (ℕ ×ₗ ℕ)} (hS : Source L Z)
    (hL : L = A ++ (page ++ R)) (hH : Holding L A held)
    (hdrop : Dropped held page → MarksReturn mark held (page ++ R))
    (h : MarksReturn mark L (held ++ (page ++ R))) :
    MarksReturn mark L ((reattach held page).1 ++ R) := by
  intro e he hm p hp hab
  have hmem := h e he hm p hp hab
  rcases reattach_cases held page with ⟨hr,hheld⟩ | ⟨x,hx,lead,rest,rfl,hlead,-,hr⟩
  · rw [hr]
    rcases List.mem_append.mp hmem with hmem | hmem
    · rcases hheld with rfl | hd
      · cases hmem
      · exact hdrop hd e hmem hm p hp hab
    · exact hmem
  · -- a repeat that is filtered out is not the end of its transaction
    have hkeep : e ∈ lead → e ∈ lead.filter (beyond x) := by
      intro hel
      refine List.mem_filter.mpr ⟨hel,?_⟩
      by_contra hb
      have hxL := hH.sub (List.mem_of_getLast? hx)
      obtain ⟨w,hw⟩ := hS.stamped x hxL
      have hle := not_beyond hS hxL he (hlead e hel) (by simpa using hb) w hw p hp
      exact (hS.marked e he x hxL (hlead e hel) hm (hH.unmarked x hx) p hp w hw).not_ge hle
    rw [hr]
    simp only [List.mem_append] at hmem ⊢
    tauto

/-- In the log of the ingestor an envelope is known by its position. -/
lemma Commits.eq_of_position {e e' : Envelope} (he : e ∈ cs.log ds) (he' : e' ∈ cs.log ds)
    (h : e.position = e'.position) : e = e' := by
  obtain ⟨d,-,hd⟩ := Commits.mem_log.mp he
  obtain ⟨d',-,hd'⟩ := Commits.mem_log.mp he'
  obtain ⟨s,-,x,hx,rfl⟩ := Commits.mem_written.mp hd
  obtain ⟨s',-,x',hx',rfl⟩ := Commits.mem_written.mp hd'
  have hs : s < (cs.commit d.commit).size := (List.getElem?_eq_some_iff.mp hx).1
  have hs' : s' < (cs.commit d'.commit).size := (List.getElem?_eq_some_iff.mp hx').1
  have hat : cs.at_ d.commit s = cs.at_ d'.commit s' := Option.some.inj h
  have hcommit : d.commit = d'.commit := cs.lsn_inj (Nat.zero_lt_of_lt hs) (Nat.zero_lt_of_lt hs')
    (congrArg (fun z => (ofLex z).1) hat)
  obtain rfl : s = s' := congrArg (fun z => (ofLex z).2) hat
  rw [hcommit] at hx ⊢
  rw [Option.some.inj (hx.symm.trans hx')]

/-- The end of a commit that the log has in full. -/
lemma Commits.end_of_complete {d : Delivery} (hc : cs.Complete d) (hpos : 0 < d.count) :
    ∃ m ∈ cs.written d, m.headers.last = some true ∧
      m.position = some (cs.at_ d.commit (d.count-1)) := by
  have hlt : d.count-1 < (cs.commit d.commit).changes.length := by
    have := hc
    rw [Commits.Complete,Commit.size] at this
    omega
  refine ⟨_,Commits.mem_written.mpr ⟨d.count-1,by omega,_,List.getElem?_eq_getElem hlt,rfl⟩,?_,rfl⟩
  have hsize : d.count-1+1 = (cs.commit d.commit).size := by
    rw [← hc]
    omega
  simp [Commit.stamp,hsize]

/-- A delivery of which the log has the end marker is complete. -/
lemma Commits.complete_of_marked {d : Delivery} {m : Envelope}
    (hsize : d.count ≤ (cs.commit d.commit).size) (hm : m ∈ cs.written d)
    (hlast : m.headers.last = some true) : cs.Complete d := by
  obtain ⟨s,hs,x,hx,rfl⟩ := Commits.mem_written.mp hm
  have hend : s+1 = (cs.commit d.commit).size := by
    by_contra hn
    simp [Commit.stamp,hn] at hlast
  rw [Commits.Complete]
  omega

lemma le_end {d : Delivery} {s : ℕ} (hs : s < d.count) :
    cs.at_ d.commit s ≤ cs.at_ d.commit (d.count-1) := by
  rcases (show s ≤ d.count-1 by omega).lt_or_eq with hlt | heq
  · exact (cs.at_lt_of_seq _ hlt).le
  · rw [heq]

/-- Where no whole commit is lost, what a dropped run holds returns. -/
lemma MarksReturn.returns (hlog : cs.Produces 0 0 0 ds) {mark : Option (ℕ ×ₗ ℕ)}
    (hL : cs.log ds = A ++ (page ++ R)) (hH : Holding (cs.log ds) A held)
    (hdrop : Dropped held page → MarksReturn mark held (page ++ R))
    (h : MarksReturn mark (cs.log ds) (held ++ (page ++ R))) (hd : Dropped held page) :
    Returns (cs.appended ds) mark held (page ++ R) := by
  have hS := Commits.source_log hlog
  have hdrop' := hdrop hd
  obtain ⟨x,hx,b,hb,hne⟩ := hd
  rintro e he _ ⟨c,hc,hcc,seq,hseq,rfl⟩ hp hab
  obtain ⟨a,haA,hak,ham⟩ := hH.inside x hx
  have haL : a ∈ cs.log ds := by
    rw [hL]
    exact List.mem_append_left _ (List.mem_of_getLast? haA)
  obtain ⟨p,hpa⟩ := hS.stamped a haL
  have hkey : e.runKey = a.runKey := (hH.run x hx e he).trans hak.symm
  have hlsn := (hS.runKey_iff e (hH.sub he) a haL _ hp p hpa).mp hkey
  obtain ⟨ds₁,d,ds₂,hds,-,hcd,hR,-,hagain⟩ := Commits.sent_again hlog hL haA ham
    (Dropped.not_continued hb hne hak) hc hcc hpa hseq hlsn
  refine hagain ?_
  -- the end of the commit is uncovered too, so it is in the log behind the dropped run
  obtain ⟨m,hmc,hm,hmp⟩ := Commits.end_of_complete hcc (Nat.zero_lt_of_lt hseq)
  have hmL := Commits.mem_log.mpr ⟨c,hc,hmc⟩
  have habm : Above mark (cs.at_ c.commit (c.count-1)) := hab.mono (le_end hseq)
  have hmR : m ∈ page ++ R := by
    rcases List.mem_append.mp (h m hmL hm _ hmp habm) with hmem | hmem
    · exact hdrop' m hmem hm _ hmp habm
    · exact hmem
  rw [hR] at hmR
  obtain ⟨c',hc',hmc'⟩ := Commits.mem_log.mp hmR
  have hc'ds : c' ∈ ds := by simp [hds,hc']
  have hcount := hlog.count c' hc'ds
  refine ⟨c',hc',?_,Commits.complete_of_marked hcount.2 hmc' hm⟩
  obtain ⟨s,-,hs⟩ := Commits.position_of_mem_written hmc'
  have hat : cs.at_ c.commit (c.count-1) = cs.at_ c'.commit s :=
    Option.some.inj (hmp.symm.trans hs)
  rw [← hcd]
  exact (cs.lsn_inj ((hlog.count c hc).1.trans_le (hlog.count c hc).2) (hcount.1.trans_le hcount.2)
    (congrArg (fun z => (ofLex z).1) hat)).symm

lemma changesOf_flatten_cons (page : List Envelope) (pages : List (List Envelope)) :
    changesOf (page :: pages).flatten = changesOf page ++ changesOf pages.flatten := by
  simp [changesOf]

/-- The loop over an orderly cutting of the rest of the log. -/
theorem runPages_between (hlog : cs.Produces 0 0 0 ds) (pages : List (List Envelope))
    {s : LoopState} {fs : List Flush} (hL : cs.log ds = A ++ changesOf pages.flatten)
    (hH : Holding (cs.log ds) A s.held) (ho : OrderlyCut s pages)
    (h : Between cs ds s.highwater fs (s.held ++ changesOf pages.flatten)) :
    ∃ mark, Between cs ds mark (fs ++ (runPages s pages).2) [] := by
  have hS := Commits.source_log hlog
  induction pages generalizing s fs A with
  | nil =>
    simp only [List.flatten_nil,changesOf,List.filter_nil,List.append_nil] at h
    have hcovered : ∀ z ∈ cs.appended ds, ¬Above s.highwater z := by
      rintro _ ⟨d,hd,hc,seq,hseq,rfl⟩ hab
      obtain ⟨m,hmd,hm,hmp⟩ := Commits.end_of_complete hc (Nat.zero_lt_of_lt hseq)
      have habm := hab.mono (le_end hseq)
      have hheld := h.marks m (Commits.mem_log.mpr ⟨d,hd,hmd⟩) hm _ hmp habm
      exact absurd (ho m hheld hm _ hmp habm) (by simp)
    refine ⟨s.highwater,h.settled,by simpa [runPages] using h.whole,?_,?_,
      by simpa [runPages] using h.taken⟩
    · exact fun z hz hab => absurd hab (hcovered z hz)
    · exact fun e he hm p hp hab => ho e (h.marks e he hm p hp hab) hm p hp hab
  | cons page pages ih =>
    obtain ⟨hpage,hdrop,hpages⟩ := ho
    rw [changesOf_flatten_cons] at hL h hdrop
    set r := readPage s ⟨page,some (s.pos.offset+page.length),false⟩ none with hr
    have hheld : r.1.held = (intake s.held (changesOf page)).held := rfl
    have hmark : r.1.highwater =
        (processRuns s.highwater (intake s.held (changesOf page)).runs).1 := rfl
    have hfs : r.2 = (processRuns s.highwater (intake s.held (changesOf page)).runs).2 := rfl
    have hruns := intake_endsOnMarker hS hL hH hpage
    have hmarks := h.marks.reattach hS hL hH hdrop
    rw [← intake_append,List.append_assoc] at hmarks
    have hbetween : Between cs ds s.highwater fs
        ((intake s.held (changesOf page)).runs.flatten ++
          ((intake s.held (changesOf page)).held ++ changesOf pages.flatten)) :=
      { h with
        ahead := ahead_intake hS hL hH (h.marks.returns hlog hL hH hdrop) h.ahead
        marks := hmarks }
    have hnext := hbetween.runs hlog
      (fun run hrun e he => runs_subset hL hH (List.mem_flatten_of_mem hrun he))
      (fun run hrun => (run_of_mem_intake hrun).1) hruns fun run hrun => (run_of_mem_intake hrun).2
    rw [← hmark,← hfs,← hheld] at hnext
    have hH' : Holding (cs.log ds) (A ++ changesOf page) r.1.held := holding_intake hS hL hH
    obtain ⟨mark,hrest⟩ := ih (by rw [hL,List.append_assoc]) hH' hpages hnext
    exact ⟨mark,by simpa only [runPages,← hr,List.append_assoc] using hrest⟩

lemma exists_map_eq {β γ : Type*} {f : β → γ} {P : β → Prop} {xs : List γ}
    (h : ∀ x ∈ xs, ∃ i, P i ∧ x = f i) : ∃ is : List β, xs = is.map f ∧ ∀ i ∈ is, P i := by
  induction xs with
  | nil => exact ⟨[],rfl,by simp⟩
  | cons x xs ih =>
    obtain ⟨i,hi,rfl⟩ := h x List.mem_cons_self
    obtain ⟨is,rfl,his⟩ := ih fun y hy => h y (List.mem_cons_of_mem _ hy)
    exact ⟨i :: is,rfl,List.forall_mem_cons.mpr ⟨hi,his⟩⟩

/-- The positions of a commit's changes. -/
lemma filterMap_envelopes (cs : Commits) (i : ℕ) :
    (cs.commit i).envelopes.filterMap Envelope.position =
      (List.range (cs.commit i).size).map (cs.at_ i) := by
  have hsome : (cs.commit i).envelopes.map Envelope.position =
      ((List.range (cs.commit i).size).map (cs.at_ i)).map some := by
    refine List.ext_getElem (by simp) fun s hs _ => ?_
    simp [Commit.envelopes,Commits.at_]
  calc (cs.commit i).envelopes.filterMap Envelope.position
      = ((cs.commit i).envelopes.map Envelope.position).filterMap id := by
        rw [List.filterMap_map]
        rfl
    _ = (List.range (cs.commit i).size).map (cs.at_ i) := by
        rw [hsome,List.filterMap_map,Function.id_comp,List.filterMap_some]

/-- The new commits of a cutting that is read to its end: those that the log has in full, in order. -/
lemma Between.commits (hlog : cs.Produces 0 0 0 ds) {mark : Option (ℕ ×ₗ ℕ)} {fs : List Flush}
    {X : List Envelope} (h : Between cs ds mark fs X)
    (hend : ∀ z ∈ cs.appended ds, ¬Above mark z) :
    ∃ is : List ℕ, (fs.map (·.fresh)).filter (!·.isEmpty) =
      (is.map fun i => (cs.commit i).envelopes) ∧
      is.Pairwise (· < ·) ∧ ∀ i, i ∈ is ↔ ∃ d ∈ ds, cs.Complete d ∧ d.commit = i := by
  have hsize : ∀ d ∈ ds, cs.Complete d → 0 < (cs.commit d.commit).size := fun d hd hc =>
    (hlog.count d hd).1.trans_le (hlog.count d hd).2
  have hwhole : ∀ x ∈ (fs.map (·.fresh)).filter (!·.isEmpty),
      ∃ i, (∃ d ∈ ds, cs.Complete d ∧ d.commit = i) ∧ x = (cs.commit i).envelopes := by
    intro x hx
    obtain ⟨hx,hne⟩ := List.mem_filter.mp hx
    obtain ⟨f,hf,rfl⟩ := List.mem_map.mp hx
    rcases (h.whole f hf).2 with hnil | ⟨d,hd,hc,hw⟩
    · simp [hnil] at hne
    · exact ⟨d.commit,⟨d,hd,hc,rfl⟩,hw⟩
  obtain ⟨is,heq,his⟩ := exists_map_eq hwhole
  have hpos : (fs.flatMap (·.fresh)).filterMap Envelope.position =
      is.flatMap fun i => (List.range (cs.commit i).size).map (cs.at_ i) := by
    rw [List.flatMap_def,← List.flatten_filter_not_isEmpty,heq,← List.flatMap_def,
      List.filterMap_flatMap]
    exact List.flatMap_congr fun i _ => filterMap_envelopes cs i
  have htaken := h.taken
  rw [hpos] at htaken
  refine ⟨is,heq,?_,fun i => ⟨his i,?_⟩⟩
  · refine (List.pairwise_flatMap.mp htaken.sorted).2.imp_of_mem fun {i j} hi hj hij => ?_
    obtain ⟨d,hd,hc,rfl⟩ := his i hi
    obtain ⟨d',hd',hc',rfl⟩ := his j hj
    have hlt : cs.at_ d.commit 0 < cs.at_ d'.commit 0 :=
      hij _ (List.mem_map_of_mem (List.mem_range.mpr (hsize d hd hc))) _
        (List.mem_map_of_mem (List.mem_range.mpr (hsize d' hd' hc')))
    rcases lt_trichotomy d.commit d'.commit with hlt' | heq' | hgt
    · exact hlt'
    · exact absurd hlt (by rw [heq']; exact lt_irrefl _)
    · exact absurd hlt (cs.at_lt_of_commit 0 0 hgt (hsize d' hd' hc') (hsize d hd hc)).asymm
  · rintro ⟨d,hd,hc,rfl⟩
    have hz : cs.at_ d.commit 0 ∈ cs.appended ds := ⟨d,hd,hc,0,(hlog.count d hd).1,rfl⟩
    obtain ⟨i,hi,hmem⟩ := List.mem_flatMap.mp (htaken.complete _ hz (hend _ hz))
    obtain ⟨s,hs,heqs⟩ := List.mem_map.mp hmem
    have hi0 : 0 < (cs.commit i).size := Nat.zero_lt_of_lt (List.mem_range.mp hs)
    have hlsn : lsnToU64 (cs.commit i).lsn = lsnToU64 (cs.commit d.commit).lsn :=
      congrArg (fun z => (ofLex z).1) heqs
    rwa [← cs.lsn_inj hi0 (hsize d hd hc) hlsn]

lemma processRuns_run (mark : Option (ℕ ×ₗ ℕ)) (runs : List (List Envelope)) :
    (processRuns mark runs).2.map (·.run) = runs := by
  induction runs generalizing mark with
  | nil => rfl
  | cons run runs ih => simp [processRuns,ih]

/-- What one read flushes: what the mark lets through of the runs. -/
lemma readPage_fresh (s : LoopState) (page : List Envelope) :
    (readPage s ⟨page,some (s.pos.offset+page.length),false⟩ none).2.flatMap (·.fresh) =
      (dedup Envelope.position s.highwater (intake s.held (changesOf page)).runs.flatten).2 :=
  processRuns_fresh _ _

lemma readPage_highwater (s : LoopState) (page : List Envelope) :
    (readPage s ⟨page,some (s.pos.offset+page.length),false⟩ none).1.highwater =
      (dedup Envelope.position s.highwater (intake s.held (changesOf page)).runs.flatten).1 :=
  processRuns_mark _ _

/-- Every change of the page after re-attaching is of the held run or of the page. -/
lemma reattach_subset_append : (reattach held page).1 ⊆ held ++ page := by
  rcases reattach_cases held page with ⟨hr,-⟩ | ⟨h,-,lead,rest,rfl,-,-,hr⟩
  · rw [hr]
    exact List.subset_append_right _ _
  · rw [hr]
    intro e he
    simp only [List.mem_append,List.mem_filter] at he ⊢
    tauto

/-- What the loop flushes comes from the held run and the pages. -/
lemma runPages_subset (pages : List (List Envelope)) (s : LoopState) :
    (runPages s pages).2.flatMap (·.fresh) ⊆ s.held ++ changesOf pages.flatten := by
  induction pages generalizing s with
  | nil => simp [runPages]
  | cons page pages ih =>
    have hmem : ∀ e, e ∈ (reattach s.held (changesOf page)).1 → e ∈ s.held ++ changesOf page :=
      fun e he => reattach_subset_append he
    intro e he
    rw [changesOf_flatten_cons,← List.append_assoc]
    simp only [runPages,List.flatMap_append] at he
    rcases List.mem_append.mp he with he | he
    · rw [readPage_fresh] at he
      refine List.mem_append_left _ (hmem e ?_)
      rw [← intake_append]
      exact List.mem_append_left _ (dedup_subset _ he)
    · rcases List.mem_append.mp (ih _ he) with he | he
      · refine List.mem_append_left _ (hmem e ?_)
        rw [← intake_append]
        exact List.mem_append_right _ he
      · exact List.mem_append_right _ he

/-- A run that is dropped adds nothing to what the loop flushes. -/
lemma runPages_of_dropped (pages : List (List Envelope)) (s : LoopState)
    (hd : Dropped s.held (changesOf page)) :
    (runPages s (page :: pages)).2.flatMap (·.fresh) ⊆ changesOf (page :: pages).flatten := by
  have hr : reattach s.held (changesOf page) = reattach [] (changesOf page) := by
    rcases reattach_cases s.held (changesOf page) with ⟨hr,-⟩ | ⟨x,hx,lead,rest,hp,hlead,hne,-⟩
    · exact hr
    · obtain ⟨h,hh,b,hb,hbh⟩ := hd
      obtain rfl := Option.some.inj (hx.symm.trans hh)
      rw [hp] at hb hne
      cases lead with
      | nil => rcases hne with hne | hne <;> simp_all
      | cons y lead =>
        obtain rfl := Option.some.inj hb
        exact absurd (hlead _ List.mem_cons_self) hbh
  have hi : intake s.held (changesOf page) = intake [] (changesOf page) := by
    rw [intake,intake,hr]
  have hs : (runPages s (page :: pages)).2 = (runPages { s with held := [] } (page :: pages)).2 := by
    simp only [runPages,readPage]
    rw [show page.filter (!isControl ·) = changesOf page from rfl,hi]
  rw [hs]
  exact runPages_subset (page :: pages) { s with held := [] }

/-- A cutting whose flushes all end on the marker, and have every commit that is in the log in full, is
orderly. -/
theorem orderlyCut_of_flushes (hlog : cs.Produces 0 0 0 ds) (pages : List (List Envelope))
    {s : LoopState} (hL : cs.log ds = A ++ changesOf pages.flatten)
    (hH : Holding (cs.log ds) A s.held) (hend : ∀ f ∈ (runPages s pages).2, EndsOnMarker f.run)
    (hall : ∀ z ∈ cs.appended ds, Above s.highwater z →
      ∃ e ∈ (runPages s pages).2.flatMap (·.fresh), e.position = some z) :
    OrderlyCut s pages := by
  have hS := Commits.source_log hlog
  -- the end of a commit that a held run has in full must still be flushed
  have hflush : ∀ (pages : List (List Envelope)) (s : LoopState) (A : List Envelope),
      cs.log ds = A ++ changesOf pages.flatten → s.held ⊆ cs.log ds →
      (∀ z ∈ cs.appended ds, Above s.highwater z →
        ∃ e ∈ (runPages s pages).2.flatMap (·.fresh), e.position = some z) →
      ∀ m ∈ s.held, m.headers.last = some true → ∀ p ∈ m.position, Above s.highwater p →
        m ∈ (runPages s pages).2.flatMap (·.fresh) := by
    intro pages s A hL hsub hall m hmem hm p hp hab
    have hmL := hsub hmem
    obtain ⟨d,hd,hmd⟩ := Commits.mem_log.mp hmL
    have hc := Commits.complete_of_marked (hlog.count d hd).2 hmd hm
    obtain ⟨seq,hseq,hpos⟩ := Commits.position_of_mem_written hmd
    obtain rfl := Option.some.inj (hpos.symm.trans hp)
    obtain ⟨e,he,hpe⟩ := hall _ ⟨d,hd,hc,seq,hseq,rfl⟩ hab
    have heL : e ∈ cs.log ds := by
      rcases List.mem_append.mp (runPages_subset pages s he) with he | he
      · exact hsub he
      · rw [hL]
        exact List.mem_append_right _ he
    rwa [Commits.eq_of_position hmL heL (hpos.trans hpe.symm)]
  induction pages generalizing s A with
  | nil =>
    intro m hmem hm p hp hab
    simpa [runPages] using hflush [] s A hL hH.sub hall m hmem hm p hp hab
  | cons page pages ih =>
    have hL' := hL
    rw [changesOf_flatten_cons] at hL'
    have hheld : Holding (cs.log ds) (A ++ changesOf page)
        (readPage s ⟨page,some (s.pos.offset+page.length),false⟩ none).1.held :=
      holding_intake hS hL' hH
    refine ⟨orderly_of_endsOnMarker fun run hrun => ?_,fun hd m hmem hm p hp hab => ?_,
      ih (by rw [hL',List.append_assoc]) hheld (fun f hf => hend f ?_) fun z hz hab => ?_⟩
    · rw [← processRuns_run s.highwater (intake s.held (changesOf page)).runs] at hrun
      obtain ⟨f,hf,rfl⟩ := List.mem_map.mp hrun
      exact hend f (List.mem_append_left _ hf)
    · exact runPages_of_dropped pages s hd
        (hflush (page :: pages) s A hL hH.sub hall m hmem hm p hp hab)
    · exact List.mem_append_right _ hf
    · rw [readPage_highwater] at hab
      obtain ⟨e,he,hpe⟩ := hall z hz (dedup_mark_mono hab)
      simp only [runPages,List.flatMap_append] at he
      refine ⟨e,(List.mem_append.mp he).resolve_left fun hnow => ?_,hpe⟩
      rw [readPage_fresh] at hnow
      exact not_above_of_mem (dedup_subset _ hnow) hpe hab

/-- A cutting of a log into pages. -/
def Cuts (pages : List (List Envelope)) (L : List Envelope) : Prop := changesOf pages.flatten = L

/-- The flushes of the loop over a cutting, from the beginning of the log. -/
def flushesOf (pages : List (List Envelope)) : List Flush :=
  (runPages (.restart (.startOf 0) none) pages).2

/-- The commits that a log has in full, in commit order. -/
def Commits.inFull (cs : Commits) (ds : List Delivery) : List ℕ :=
  ((ds.filter (cs.Complete ·)).map (·.commit)).toFinset.sort (· ≤ ·)

/-- Transaction-atomic emission: every flush is whole, and those that append something are the commits
that the log has in full, one by one. -/
def Commits.Atomic (cs : Commits) (ds : List Delivery) (pages : List (List Envelope)) : Prop :=
  (∀ f ∈ flushesOf pages, cs.WholeFlush ds f) ∧ ∀ {σ α : Type} (E : Executor σ α) (x : σ),
    E.emitted x (flushesOf pages) =
      (E.flushes x ((cs.inFull ds).map fun i => (cs.commit i).envelopes)).filter (!·.isEmpty)

lemma Commits.mem_inFull {i : ℕ} :
    i ∈ cs.inFull ds ↔ ∃ d ∈ ds, cs.Complete d ∧ d.commit = i := by
  simp [Commits.inFull,and_assoc]

theorem atomic_of_orderlyCut (hlog : cs.Produces 0 0 0 ds) {pages : List (List Envelope)}
    (hcut : Cuts pages (cs.log ds)) (ho : OrderlyCut (.restart (.startOf 0) none) pages) :
    cs.Atomic ds pages := by
  have hS := Commits.source_log hlog
  have hstart : Between cs ds none [] ([] ++ changesOf pages.flatten) := by
    rw [List.nil_append,hcut]
    exact ⟨by simp [Commits.Settled],by simp,hS.begins,fun e he _ _ _ _ => he,Taken.nil _⟩
  obtain ⟨mark,h⟩ := runPages_between hlog pages (A := []) hcut.symm (Holding.nil _ _) ho hstart
  have hend : ∀ z ∈ cs.appended ds, ¬Above mark z := by
    intro z hz hab
    obtain ⟨B,e,C,hnil,-⟩ := h.ahead z hz hab
    simp at hnil
  obtain ⟨is,hfresh,hsorted,his⟩ := h.commits hlog hend
  have heq : is = cs.inFull ds :=
    hsorted.eq_of_mem_iff (Finset.sortedLT_sort _ |>.pairwise) fun i => (his i).trans Commits.mem_inFull.symm
  refine ⟨h.whole,fun E x => ?_⟩
  rw [E.emitted_eq,← heq]
  exact congrArg _ (congrArg _ hfresh)

/-- The executor that stages every change as it is. -/
def Executor.record : Executor Unit Envelope := ⟨fun x e => (x,[e])⟩

lemma Executor.stage_record (x : Unit) (es : List Envelope) : record.stage x es = (x,es) := by
  induction es with
  | nil => rfl
  | cons e es ih =>
    rw [stage,ih]
    rfl

lemma Executor.flushes_record (x : Unit) (fs : List (List Envelope)) : record.flushes x fs = fs := by
  induction fs with
  | nil => rfl
  | cons fresh fs ih => simp [flushes,stage_record,ih]

theorem orderlyCut_of_atomic (hlog : cs.Produces 0 0 0 ds) {pages : List (List Envelope)}
    (hcut : Cuts pages (cs.log ds)) (h : cs.Atomic ds pages) :
    OrderlyCut (.restart (.startOf 0) none) pages := by
  refine orderlyCut_of_flushes hlog pages (A := []) hcut.symm (Holding.nil _ _)
    (fun f hf => (h.1 f hf).1) ?_
  rintro _ ⟨d,hd,hc,seq,hseq,rfl⟩ -
  have hsame := h.2 Executor.record ()
  rw [Executor.emitted,Executor.flushes_record,Executor.flushes_record] at hsame
  have hlt : seq < (cs.commit d.commit).envelopes.length := by
    rw [Commit.length_envelopes,← hc]
    exact hseq
  have hmem : (cs.commit d.commit).envelopes ∈
      ((flushesOf pages).map (·.fresh)).filter (!·.isEmpty) := by
    rw [hsame]
    refine List.mem_filter.mpr ⟨List.mem_map_of_mem (Commits.mem_inFull.mpr ⟨d,hd,hc,rfl⟩),?_⟩
    simpa using List.ne_nil_of_length_pos (Nat.zero_lt_of_lt hlt)
  obtain ⟨f,hf,hfresh⟩ := List.mem_map.mp (List.mem_filter.mp hmem).1
  refine ⟨(cs.commit d.commit).envelopes[seq],List.mem_flatMap.mpr ⟨f,hf,?_⟩,?_⟩
  · rw [hfresh]
    exact List.getElem_mem hlt
  · simp [Commit.envelopes,Commits.at_]

end

/-- Over every log of the ingestor and every cutting of it: emission is transaction-atomic exactly when
the cutting is orderly; so all orderly cuttings make the same non-empty flushes. -/
theorem atomic_iff_orderlyCut (cs : Commits) (ds : List Delivery) (hlog : cs.Produces 0 0 0 ds)
    (pages : List (List Envelope)) (hcut : Cuts pages (cs.log ds)) :
    (cs.Atomic ds pages ↔ OrderlyCut (.restart (.startOf 0) none) pages) ∧
    ∀ pages', Cuts pages' (cs.log ds) → OrderlyCut (.restart (.startOf 0) none) pages →
      OrderlyCut (.restart (.startOf 0) none) pages' → ∀ {σ α : Type} (E : Executor σ α) (x : σ),
        E.emitted x (flushesOf pages) = E.emitted x (flushesOf pages') := by
  refine ⟨⟨orderlyCut_of_atomic hlog hcut,atomic_of_orderlyCut hlog hcut⟩,?_⟩
  intro pages' hcut' ho ho' σ α E x
  rw [(atomic_of_orderlyCut hlog hcut ho).2,(atomic_of_orderlyCut hlog hcut' ho').2]

/-- The second transaction is interrupted within a page: its first change is flushed by itself. -/
theorem sample_not_atomic :
    Commits.sample.Produces 0 0 0 Commits.sampleDeliveries ∧
    Cuts [Commits.sample.log Commits.sampleDeliveries]
      (Commits.sample.log Commits.sampleDeliveries) ∧
    (flushesOf [Commits.sample.log Commits.sampleDeliveries]).map
      (fun f => f.fresh.map (·.key)) = [["a"],["b"],[],["c"]] ∧
    ¬Commits.sample.Atomic Commits.sampleDeliveries
      [Commits.sample.log Commits.sampleDeliveries] := by
  refine ⟨Commits.sample_produces,?_,by decide +kernel,fun h => ?_⟩
  · rw [Cuts,changesOf,List.flatten_singleton]
    exact List.filter_eq_self.mpr (by decide +kernel)
  · have hlast : (flushesOf [Commits.sample.log Commits.sampleDeliveries]).map
        (fun f => f.run.getLast?.bind (·.headers.last)) =
        [some true,none,some true,some true] := by decide +kernel
    have hnone : none ∈ (flushesOf [Commits.sample.log Commits.sampleDeliveries]).map
        (fun f => f.run.getLast?.bind (·.headers.last)) := by simp [hlast]
    obtain ⟨f,hf,hfn⟩ := List.mem_map.mp hnone
    have hend := (h.1 f hf).1
    have hall : ∀ f ∈ flushesOf [Commits.sample.log Commits.sampleDeliveries], f.run ≠ [] := by
      decide +kernel
    obtain ⟨e,he⟩ := Option.ne_none_iff_exists'.mp (mt List.getLast?_eq_none_iff.mp (hall f hf))
    rw [he,Option.bind_some,hend e he] at hfn
    cases hfn

/-- With the interrupted append at the end of its page. -/
theorem sample_atomic :
    Commits.sample.Atomic Commits.sampleDeliveries
      [Commits.sample.log [⟨0,1⟩,⟨1,1⟩],Commits.sample.log [⟨0,1⟩,⟨1,2⟩]] := by
  refine (atomic_iff_orderlyCut Commits.sample Commits.sampleDeliveries Commits.sample_produces
    _ ?_).1.mpr ⟨by decide +kernel,?_,by decide +kernel,?_,?_⟩
  · rw [Cuts,changesOf]
    exact List.filter_eq_self.mpr (by decide +kernel)
  · rintro ⟨h,hh,-⟩
    cases hh
  · -- the run that the second page drops is not at its end
    intro _ e he hm
    refine absurd hm ?_
    revert e
    decide +kernel
  · intro e he hm
    refine absurd hm ?_
    revert e
    decide +kernel

end ElectricCircuits
