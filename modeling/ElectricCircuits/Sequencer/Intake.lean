import ElectricCircuits.Ingestor
import ElectricCircuits.Sequencer.Page

/-! What one read keeps of the log: every change that the mark does not cover stays ahead, in the held
run or in the log behind the cursor. -/
namespace ElectricCircuits
open Replay

lemma processRuns_mark (mark : Option (ℕ ×ₗ ℕ)) (runs : List (List Envelope)) :
    (processRuns mark runs).1 = (dedup Envelope.position mark runs.flatten).1 := by
  induction runs generalizing mark with
  | nil => rfl
  | cons run runs ih => simp [processRuns,ih,dedup_append]

lemma processRuns_fresh (mark : Option (ℕ ×ₗ ℕ)) (runs : List (List Envelope)) :
    (processRuns mark runs).2.flatMap (·.fresh) = (dedup Envelope.position mark runs.flatten).2 := by
  induction runs generalizing mark with
  | nil => rfl
  | cons run runs ih => simp [processRuns,ih,dedup_append]

/-- A held run is one transaction, not at its end, and the log read so far ends inside it. -/
structure Holding (L A held : List Envelope) : Prop where
  sub : held ⊆ L
  run : ∀ h ∈ held.getLast?, ∀ e ∈ held, e.runKey = h.runKey
  unmarked : ∀ h ∈ held.getLast?, h.headers.last ≠ some true
  inside : ∀ h ∈ held.getLast?, ∃ a ∈ A.getLast?, a.runKey = h.runKey ∧ a.headers.last ≠ some true

lemma Holding.nil (L A : List Envelope) : Holding L A [] where
  sub := List.nil_subset L
  run := by simp
  unmarked := by simp
  inside := by simp

/-- The trailing run is cut off where its transaction begins. -/
lemma unterminatedTail_eq_some {envs : List Envelope} {cut : ℕ} (h : unterminatedTail envs = some cut) :
    ∃ last ∈ envs.getLast?, last.headers.last ≠ some true ∧ last ∈ (envs.drop cut).getLast? ∧
      (∀ e ∈ envs.drop cut, e.runKey = last.runKey) ∧
      ∀ e ∈ (envs.take cut).getLast?, e.runKey ≠ last.runKey := by
  rw [unterminatedTail] at h
  split at h
  · cases h
  · rename_i last hlast
    split_ifs at h with hmark hseq
    obtain rfl := Option.some.inj h
    have hcut : envs.drop (envs.rdropWhile (·.runKey == last.runKey)).length =
        envs.rtakeWhile (·.runKey == last.runKey) := by
      have happ : envs.rdropWhile (·.runKey == last.runKey) ++
          envs.rtakeWhile (·.runKey == last.runKey) = envs := List.rdropWhile_append_rtakeWhile
      exact (congrArg (List.drop _) happ).symm.trans List.drop_left
    refine ⟨last,hlast,hmark,?_,?_,?_⟩
    · obtain ⟨init,rfl⟩ := List.getLast?_eq_some_iff.mp hlast
      rw [hcut,List.rtakeWhile_concat_pos _ _ _ (by simp)]
      simp
    · intro e he
      rw [hcut] at he
      simpa using List.mem_rtakeWhile_imp he
    · intro e he
      rw [← List.prefix_iff_eq_take.mp (List.rdropWhile_prefix _ envs)] at he
      obtain ⟨hne,hlast'⟩ := List.mem_getLast?_eq_getLast he
      rw [hlast']
      simpa using List.rdropWhile_last_not _ _ hne

/-- A page that nothing is cut off ends on the end marker. -/
lemma marked_of_unterminatedTail {envs : List Envelope} (h : unterminatedTail envs = none)
    (hs : ∀ e ∈ envs, ∃ p, e.position = some p) : ∀ e ∈ envs.getLast?, e.headers.last = some true := by
  intro e he
  obtain ⟨p,hp⟩ := hs e (List.mem_of_getLast? he)
  rw [unterminatedTail,he] at h
  by_contra hn
  simp [hn,Envelope.seq_of_position hp] at h

@[simp] lemma flatten_runsOf (envs : List Envelope) : (runsOf envs).flatten = envs :=
  List.flatten_splitBy _ envs

/-- The runs to process and the run to hold are the page after re-attaching. -/
lemma intake_append (held page : List Envelope) :
    (intake held page).runs.flatten ++ (intake held page).held = (reattach held page).1 := by
  simp only [intake]
  split <;> simp

/-- How a page is re-attached. -/
lemma reattach_cases (held page : List Envelope) :
    (reattach held page = (page,none) ∧ (held = [] ∨
      ∃ h ∈ held.getLast?, ∃ b ∈ page.head?, b.runKey ≠ h.runKey)) ∨
    ∃ h ∈ held.getLast?, ∃ lead rest, page = lead ++ rest ∧ (∀ e ∈ lead, e.runKey = h.runKey) ∧
      (page = [] ∨ lead ≠ []) ∧
      reattach held page = (held ++ (lead.filter (beyond h) ++ rest),some h.runKey) := by
  rw [reattach]
  split
  · rename_i hnil
    exact .inl ⟨rfl,.inl (List.getLast?_eq_none_iff.mp hnil)⟩
  · rename_i h hlast
    dsimp only
    split_ifs with hlead
    · refine .inl ⟨rfl,.inr ⟨h,hlast,?_⟩⟩
      obtain ⟨hnone,hpage⟩ := hlead
      obtain ⟨b,page,rfl⟩ := List.exists_cons_of_ne_nil hpage
      refine ⟨b,rfl,fun hb => ?_⟩
      simp [hb] at hnone
    · refine .inr ⟨h,hlast,_,_,List.takeWhile_append_dropWhile.symm,?_,?_,rfl⟩
      · intro e he
        simpa using List.mem_takeWhile_imp he
      · by_cases hpage : page = []
        · exact .inl hpage
        · exact .inr fun hn => hlead ⟨hn,hpage⟩

section
variable {L A page R held : List Envelope} {Z : Set (ℕ ×ₗ ℕ)} {mark : Option (ℕ ×ₗ ℕ)}

/-- A repeat that the held run makes superfluous is not the end of the transaction. -/
lemma not_beyond {h e : Envelope} (hS : Source L Z) (hh : h ∈ L) (he : e ∈ L)
    (hkey : e.runKey = h.runKey) (hb : beyond h e = false) :
    ∀ w ∈ h.position, ∀ p ∈ e.position, p ≤ w := by
  intro w hw p hp
  have hlsn : (ofLex p).1 = (ofLex w).1 := (hS.runKey_iff e he h hh p hp w hw).mp hkey
  rw [beyond,Envelope.seq_of_position hp,Envelope.seq_of_position hw] at hb
  exact Prod.Lex.le_iff.mpr (.inr ⟨hlsn,by simpa using hb⟩)

/-- The page goes on with another transaction than the held run, which is dropped. -/
def Dropped (held page : List Envelope) : Prop :=
  ∃ h ∈ held.getLast?, ∃ b ∈ page.head?, b.runKey ≠ h.runKey

/-- What is uncovered of a held run that is dropped comes again behind it. -/
def Returns (Z : Set (ℕ ×ₗ ℕ)) (mark : Option (ℕ ×ₗ ℕ)) (held X : List Envelope) : Prop :=
  ∀ e ∈ held, ∀ z ∈ Z, e.position = some z → Above mark z → Ahead Envelope.position {z} none X

lemma Dropped.not_continued {h b : Envelope} (hb : b ∈ page.head?) (hne : b.runKey ≠ h.runKey)
    {a : Envelope} (ha : a.runKey = h.runKey) :
    ∀ b' ∈ (page ++ R).head?, b'.runKey ≠ a.runKey := by
  intro b' hb'
  rw [List.head?_append,Option.mem_def.mp hb] at hb'
  obtain rfl := Option.some.inj hb'
  rwa [ha]

/-- In a log that sends every interrupted transaction again, a dropped run returns. -/
lemma Resends.returns (hR : Resends L Z) (hS : Source L Z) (hL : L = A ++ (page ++ R))
    (hH : Holding L A held) (hd : Dropped held page) : Returns Z mark held (page ++ R) := by
  obtain ⟨h,hh,b,hb,hne⟩ := hd
  intro e he z hz hp _
  obtain ⟨a,haA,hak,ham⟩ := hH.inside h hh
  have haL : a ∈ L := by
    rw [hL]
    exact List.mem_append_left _ (List.mem_of_getLast? haA)
  obtain ⟨p,hpa⟩ := hS.stamped a haL
  have hkey : e.runKey = a.runKey := (hH.run h hh e he).trans hak.symm
  have hlsn := (hS.runKey_iff e (hH.sub he) a haL z hp p hpa).mp hkey
  exact hR A (page ++ R) hL a haA ham (Dropped.not_continued hb hne hak) z hz p hpa hlsn

/-- Re-attaching keeps what is ahead ahead. -/
theorem ahead_reattach (hS : Source L Z) (hL : L = A ++ (page ++ R)) (hH : Holding L A held)
    (hret : Dropped held page → Returns Z mark held (page ++ R))
    (ha : Ahead Envelope.position Z mark (held ++ (page ++ R))) :
    Ahead Envelope.position Z mark ((reattach held page).1 ++ R) := by
  rcases reattach_cases held page with ⟨hr,hheld⟩ | ⟨h,hh,lead,rest,rfl,hlead,-,hr⟩
  · rw [hr]
    rcases hheld with rfl | ⟨h,hh,b,hb,hne⟩
    · simpa using ha
    · -- the held fragment is dropped, and all that it had is sent again
      intro z hz hm
      obtain ⟨B,e,C,hsplit,he,hB⟩ := ha z hz hm
      rcases split_append hsplit with ⟨H,hheld,-⟩ | ⟨B',rfl,hB'⟩
      · exact hret ⟨h,hh,b,hb,hne⟩ e (by simp [hheld]) z hz he hm z rfl trivial
      · exact ⟨B',e,C,hB',he,fun c hc => hB c (List.mem_append_right _ hc)⟩
  · rw [hr]
    have hhL : h ∈ L := hH.sub (List.mem_of_getLast? hh)
    obtain ⟨w,hw⟩ := hS.stamped h hhL
    have hbeyond : ∀ e ∈ lead, beyond h e = false → ∀ p ∈ e.position, p ≤ w := by
      intro e he hb p hp
      have heL : e ∈ L := by rw [hL]; simp [he]
      exact not_beyond hS hhL heL (hlead e he) hb w hw p hp
    rw [List.append_assoc] at ha
    simpa using ha.filter hh hw hbeyond

/-- Where the page after re-attaching ends, the log read so far ends too: in the same transaction, and
not at its end unless both are. -/
lemma getLast_reattach (hS : Source L Z) (hL : L = A ++ (page ++ R)) (hH : Holding L A held)
    {e : Envelope} (he : e ∈ (reattach held page).1.getLast?) (hm : e.headers.last ≠ some true) :
    ∃ a ∈ (A ++ page).getLast?, a.runKey = e.runKey ∧ a.headers.last ≠ some true := by
  have happ : ∀ {xs ys : List Envelope} {x}, x ∈ ys.getLast? → x ∈ (xs ++ ys).getLast? := by
    intro xs ys x hx
    rw [List.getLast?_append,Option.mem_def.mp hx]
    rfl
  rcases reattach_cases held page with ⟨hr,-⟩ | ⟨h,hh,lead,rest,rfl,hlead,hne,hr⟩
  · rw [hr] at he
    exact ⟨e,happ he,rfl,hm⟩
  · rw [hr] at he
    by_cases hrest : rest = []
    · subst hrest
      simp only [List.append_nil] at he hne ⊢
      have hkey : e.runKey = h.runKey := by
        rcases List.mem_append.mp (List.mem_of_getLast? he) with hmem | hmem
        · exact hH.run h hh e hmem
        · exact hlead e (List.mem_filter.mp hmem).1
      rcases hne with rfl | hne
      · obtain ⟨a,ha,hak,ham⟩ := hH.inside h hh
        exact ⟨a,by simpa using ha,hak.trans hkey.symm,ham⟩
      · -- the last envelope of the page may have been dropped as a repeat
        obtain ⟨init,x,rfl⟩ := (List.eq_nil_or_concat' lead).resolve_left hne
        have hxk : x.runKey = h.runKey := hlead x (by simp)
        refine ⟨x,by simp [List.getLast?_append],hxk.trans hkey.symm,fun hxm => ?_⟩
        have hxL : x ∈ L := by rw [hL]; simp
        have hhL : h ∈ L := hH.sub (List.mem_of_getLast? hh)
        by_cases hb : beyond h x = true
        · have hlast : x ∈ (held ++ (init ++ [x]).filter (beyond h)).getLast? := by
            rw [List.filter_append]
            simp [hb,List.getLast?_append]
          obtain rfl := Option.some.inj (he.symm.trans hlast)
          exact hm hxm
        · obtain ⟨w,hw⟩ := hS.stamped h hhL
          obtain ⟨p,hp⟩ := hS.stamped x hxL
          have hle := not_beyond hS hhL hxL hxk (by simpa using hb) w hw p hp
          exact (hS.marked x hxL h hhL hxk hxm (hH.unmarked h hh) p hp w hw).not_ge hle
    · have hlast : e ∈ rest.getLast? := by
        rwa [List.getLast?_append_of_ne_nil _ (by simp [hrest]),
          List.getLast?_append_of_ne_nil _ hrest] at he
      exact ⟨e,happ (happ hlast),rfl,hm⟩

lemma reattach_subset (hL : L = A ++ (page ++ R)) (hH : Holding L A held) :
    (reattach held page).1 ⊆ L := by
  have hpage : page ⊆ L := by
    rw [hL]
    intro e he
    simp [he]
  rcases reattach_cases held page with ⟨hr,-⟩ | ⟨h,hh,lead,rest,rfl,-,-,hr⟩
  · rw [hr]
    exact hpage
  · rw [hr]
    intro e he
    rcases List.mem_append.mp he with he | he
    · exact hH.sub he
    · rcases List.mem_append.mp he with he | he
      · exact hpage (List.mem_append_left _ (List.mem_filter.mp he).1)
      · exact hpage (List.mem_append_right _ he)

lemma runs_subset (hL : L = A ++ (page ++ R)) (hH : Holding L A held) :
    (intake held page).runs.flatten ⊆ L := by
  intro e he
  refine reattach_subset hL hH ?_
  rw [← intake_append]
  exact List.mem_append_left _ he

/-- The run held after a read. -/
theorem holding_intake (hS : Source L Z) (hL : L = A ++ (page ++ R)) (hH : Holding L A held) :
    Holding L (A ++ page) (intake held page).held := by
  have hsub := reattach_subset hL hH
  have hlast := fun e => getLast_reattach (e := e) hS hL hH
  simp only [intake]
  split
  · rename_i cut hcut
    obtain ⟨last,hl,hm,hdrop,hrun,-⟩ := unterminatedTail_eq_some hcut
    have heq : ∀ h ∈ ((reattach held page).1.drop cut).getLast?, h = last := fun h hh =>
      Option.some.inj (hh.symm.trans hdrop)
    refine ⟨fun e he => hsub (List.mem_of_mem_drop he),?_,?_,?_⟩
    · intro h hh e he
      rw [heq h hh]
      exact hrun e he
    · intro h hh
      rw [heq h hh]
      exact hm
    · intro h hh
      rw [heq h hh]
      exact hlast last hl hm
  · exact Holding.nil _ _

/-- After a read, every change that is ahead is in the runs to process, in the held run or in the rest
of the log. -/
theorem ahead_intake (hS : Source L Z) (hL : L = A ++ (page ++ R)) (hH : Holding L A held)
    (hret : Dropped held page → Returns Z mark held (page ++ R))
    (ha : Ahead Envelope.position Z mark (held ++ (page ++ R))) :
    Ahead Envelope.position Z mark
      ((intake held page).runs.flatten ++ ((intake held page).held ++ R)) := by
  rw [← List.append_assoc,intake_append]
  exact ahead_reattach hS hL hH hret ha

/-- A run newly held is cut off a page that had the old one in full, or did not go on with it. -/
theorem held_processed (hH : Holding L A held) (hne : (intake held page).held ≠ [])
    (hc : (intake held page).continuation = false) :
    (reattach held page).1 = page ∨ held ⊆ (intake held page).runs.flatten := by
  rcases reattach_cases held page with ⟨hr,-⟩ | ⟨h,hh,lead,rest,rfl,hlead,-,hr⟩
  · exact .inl (by rw [hr])
  · right
    have hsplit := intake_append held (lead ++ rest)
    simp only [intake] at hne hc hsplit ⊢
    split at hne
    · rename_i cut hcut
      rw [hcut] at hc hsplit
      simp only at hc hne hsplit ⊢
      rw [hr] at hc hsplit hcut hne
      obtain ⟨b,hb⟩ := Option.ne_none_iff_exists'.mp (mt List.head?_eq_none_iff.mp hne)
      simp only [hb,Option.isSome_some,Option.map_some,Bool.true_and,beq_eq_false_iff_ne,ne_eq,
        Option.some.injEq] at hc
      obtain ⟨last,-,-,-,hrun,-⟩ := unterminatedTail_eq_some hcut
      -- nothing of the old run is in the new one
      intro e he
      have hmem : e ∈ (runsOf (List.take cut (held ++ (lead.filter (beyond h) ++ rest)))).flatten ++
          (held ++ (lead.filter (beyond h) ++ rest)).drop cut := by
        rw [hsplit]
        exact List.mem_append_left _ he
      rw [hr]
      refine (List.mem_append.mp hmem).resolve_right fun hdrop => hc ?_
      rw [hrun b (List.mem_of_mem_head? hb),← hrun e hdrop]
      exact hH.run h hh e he
    · exact absurd rfl hne

/-- Once the log is read to its end, nothing that it has in full is uncovered. -/
theorem covered_at_end (hS : Source L Z) (hR : Resends L Z) (hH : Holding L L held)
    (ha : Ahead Envelope.position Z mark held) : ∀ z ∈ Z, ¬Above mark z := by
  intro z hz hm
  obtain ⟨B,e,C,hsplit,he,-⟩ := ha z hz hm
  have hmem : e ∈ held := by simp [hsplit]
  obtain ⟨x,hx⟩ := Option.ne_none_iff_exists'.mp
    (mt List.getLast?_eq_none_iff.mp (List.ne_nil_of_mem hmem))
  obtain ⟨a,ha,hak,ham⟩ := hH.inside x hx
  have haL : a ∈ L := List.mem_of_getLast? ha
  obtain ⟨p,hp⟩ := hS.stamped a haL
  have hkey : e.runKey = a.runKey := (hH.run x hx e hmem).trans hak.symm
  have hlsn := (hS.runKey_iff e (hH.sub hmem) a haL z he p hp).mp hkey
  -- a held run at the end of the log would be sent again
  obtain ⟨B',e',C',hB,-⟩ := hR L [] (by simp) a ha ham (by simp) z hz p hp hlsn z rfl trivial
  simp at hB

end
end ElectricCircuits
