import ElectricCircuits.Lib.Shed
import ElectricCircuits.Lifecycle.Engine
import Mathlib.Algebra.Order.BigOperators.Group.List

/-! The plan of a retention sweep: which shapes go dormant and which are evicted, by idleness, age, the distance
of their replay, the count cap and the byte cap. -/
namespace ElectricCircuits

/-- What a sweep reads of the retention settings; durations are nanoseconds. -/
structure RetentionConfig where
  idleTimeout : ℕ
  dormantTtl : ℕ
  replayMinBytes : ℕ
  replayMultiplier : ℕ
  maxShapes : ℕ
  diskBudgetBytes : ℕ

/-- `replay_budget`. -/
def RetentionConfig.replayBudget (cfg : RetentionConfig) (backfillBytes : Option ℕ) : ℕ :=
  max cfg.replayMinBytes (min (backfillBytes.getD 0*cfg.replayMultiplier) (2^64-1))

structure SweepShape where
  id : String
  refcount : ℕ
  idle : ℕ
  dormantFor : Option ℕ
  inTransition : Bool
  dormancyEligible : Bool
  streamBytes : ℕ
  replaySpanBytes : Option ℕ
  replaySpanDeferred : Bool
  backfillBytes : Option ℕ

/-- What one sweep is to do. -/
structure SweepPlan where
  deactivate : List String
  evict : List (String × EvictReason)
  overCapacity : Bool
  overBudget : Bool

/-- `Duration + Duration`. -/
def addDurations (a b : ℕ) : Except String ℕ :=
  if a+b < 2^64*10^9 then .ok (a+b) else .error "overflow when adding durations"

/-- The sum of 64-bit counters, overflow checked. -/
def sumBytes (bytes : List ℕ) : Except String ℕ :=
  if bytes.sum < 2^64 then .ok bytes.sum else .error "attempt to add with overflow"

namespace RetentionConfig
variable (cfg : RetentionConfig)

def idleOut (s : SweepShape) : Bool :=
  s.dormancyEligible && !s.inTransition && s.dormantFor.isNone && s.refcount == 0 && decide (cfg.idleTimeout ≤ s.idle)

/-- A dormant shape that is too far behind to be replayed, or whose segment is gone. -/
def replayRetirement (s : SweepShape) : Option EvictReason :=
  if s.dormantFor.isNone || s.replaySpanDeferred then none
  else
    match s.replaySpanBytes with
    | none => some .changeLogRetention
    | some span => if cfg.replayBudget s.backfillBytes < span then some .replayBudget else none

def dormantOut (s : SweepShape) : Bool := s.dormantFor.any fun d => decide (cfg.dormantTtl ≤ d)

/-- Neither parkable nor in use: only such a shape is aged by both times together. -/
def unparked (s : SweepShape) : Bool := !s.dormancyEligible && !s.inTransition && s.refcount == 0

def aged (s : SweepShape) : Except String Bool :=
  if unparked s then (addDurations cfg.idleTimeout cfg.dormantTtl).map fun grace => decide (grace ≤ s.idle)
  else .ok false

def agedOut : List SweepShape → Except String (List SweepShape)
  | [] => .ok []
  | s :: ss => do
    let out ← cfg.aged s
    let rest ← agedOut ss
    return if out then s :: rest else rest

/-- The shapes of the TTL tier, in the order of their eviction. -/
def expired (shapes : List SweepShape) : Except String (List SweepShape) :=
  if cfg.dormantTtl = 0 then .ok [] else (cfg.agedOut shapes).map fun aged => shapes.filter cfg.dormantOut ++ aged

/-- The tier of the count cap, with how many shapes there are. -/
def countTier (count : ℕ) (lru : List SweepShape) : List SweepShape × List SweepShape × Bool :=
  if cfg.maxShapes = 0 then ([],lru,false) else Shed.shed (fun _ => 1) cfg.maxShapes count lru

/-- The tier of the byte cap, with the shapes that are left. -/
def byteTier (left lru : List SweepShape) : Except String (List SweepShape × List SweepShape × Bool) :=
  if cfg.diskBudgetBytes = 0 then .ok ([],lru,false)
  else (sumBytes (left.map (·.streamBytes))).map fun total => Shed.shed (·.streamBytes) cfg.diskBudgetBytes total lru

end RetentionConfig

/-- The shapes that are left when some are gone. -/
def remaining (shapes : List SweepShape) (gone : List String) : List SweepShape :=
  shapes.filter fun s => decide (s.id ∉ gone)

/-- `plan_sweep`; the sums that overflow panic. -/
def planSweep (cfg : RetentionConfig) (shapes : List SweepShape) : Except String SweepPlan := do
  let deactivate := if cfg.idleTimeout = 0 then [] else (shapes.filter cfg.idleOut).map (·.id)
  let expired ← cfg.expired shapes
  let early := (shapes.filterMap fun s => (cfg.replayRetirement s).map (s.id,·)) ++
    expired.map fun s => (s.id,EvictReason.dormantTtl)
  let evicted := early.map (·.1)
  let lru := ((remaining shapes evicted).filter fun s => s.dormantFor.isSome).mergeSort fun a b =>
    decide (b.idle ≤ a.idle)
  let (forCount,lru,overCapacity) := cfg.countTier (shapes.length-evicted.dedup.length) lru
  let (forBytes,_,overBudget) ← cfg.byteTier (remaining shapes (evicted ++ forCount.map (·.id))) lru
  return ⟨deactivate,early ++ forCount.map (fun s => (s.id,.maxShapes)) ++ forBytes.map (fun s => (s.id,.diskBudget)),
    overCapacity,overBudget⟩

/-- A snapshot as the engine takes it: each shape once, and no dormant shape that cannot park or is in transition. -/
structure SweepSnapshot where
  shapes : List SweepShape
  ids : (shapes.map (·.id)).Nodup
  parked : ∀ s ∈ shapes, s.dormantFor.isSome = true → s.dormancyEligible = true ∧ s.inTransition = false

/-- What is evicted by a plan, up to some place of it. -/
def gone (evict : List (String × EvictReason)) : List String := evict.map (·.1)

/-- The cap that an eviction was made for is exceeded. -/
def Exceeds (cfg : RetentionConfig) (left : List SweepShape) : EvictReason → Prop
  | .maxShapes => cfg.maxShapes < left.length
  | .diskBudget => cfg.diskBudgetBytes < (left.map (·.streamBytes)).sum
  | _ => False

/-- The policy of a sweep. -/
structure Honours (cfg : RetentionConfig) (shapes : List SweepShape) (plan : SweepPlan) : Prop where
  onceDeactivated : plan.deactivate.Nodup
  onceEvicted : (gone plan.evict).Nodup
  oneAction : ∀ id ∈ plan.deactivate, id ∉ gone plan.evict
  entitled : ∀ id ∈ gone plan.evict, ∃ s ∈ shapes, s.id = id ∧ (s.dormantFor.isSome = true ∨
    s.dormancyEligible = false ∧ s.inTransition = false ∧ s.refcount = 0 ∧ cfg.idleTimeout+cfg.dormantTtl ≤ s.idle)
  count : cfg.maxShapes = 0 ∨ (remaining shapes (gone plan.evict)).length ≤ cfg.maxShapes ∨
    (∀ s ∈ shapes, s.dormantFor.isSome = true → s.id ∈ gone plan.evict) ∧ plan.overCapacity = true
  bytes : cfg.diskBudgetBytes = 0 ∨
    ((remaining shapes (gone plan.evict)).map (·.streamBytes)).sum ≤ cfg.diskBudgetBytes ∨
    (∀ s ∈ shapes, s.dormantFor.isSome = true → s.id ∈ gone plan.evict) ∧ plan.overBudget = true
  capped : ∀ pre id reason post, plan.evict = pre ++ (id,reason) :: post →
    reason = .maxShapes ∨ reason = .diskBudget →
      Exceeds cfg (remaining shapes (gone pre)) reason ∧ ∃ s ∈ shapes, s.id = id ∧ s.dormantFor.isSome = true ∧
        ∀ r ∈ shapes, r.dormantFor.isSome = true → r.id ∉ gone pre → r.idle ≤ s.idle

/-- A dormant shape that the sweep retires both for its replay and for its age. -/
def RetiredTwice (cfg : RetentionConfig) (shapes : List SweepShape) : Prop :=
  cfg.dormantTtl ≠ 0 ∧ ∃ s ∈ shapes, (cfg.replayRetirement s).isSome = true ∧ cfg.dormantOut s = true

section
variable {cfg : RetentionConfig} {shapes : List SweepShape}

namespace RetentionConfig

/-- Idle for both times together. -/
def graceOut (cfg : RetentionConfig) (s : SweepShape) : Bool :=
  unparked s && decide (cfg.idleTimeout+cfg.dormantTtl ≤ s.idle)

lemma addDurations_ok {a b c : ℕ} (h : addDurations a b = .ok c) : c = a+b := by
  rw [addDurations] at h
  split at h
  · exact (Except.ok.inj h).symm
  · cases h

lemma aged_ok {s : SweepShape} {out : Bool} (h : cfg.aged s = .ok out) : out = cfg.graceOut s := by
  rw [aged] at h
  rw [graceOut]
  split at h
  · next hu =>
    cases hadd : addDurations cfg.idleTimeout cfg.dormantTtl with
    | error e =>
      rw [hadd] at h
      cases h
    | ok grace =>
      rw [hadd] at h
      rw [hu,← Except.ok.inj h,addDurations_ok hadd,Bool.true_and]
  · next hu => rw [← Except.ok.inj h,Bool.eq_false_iff.mpr hu,Bool.false_and]

lemma agedOut_ok {ss out : List SweepShape} (h : cfg.agedOut ss = .ok out) : out = ss.filter cfg.graceOut := by
  induction ss generalizing out with
  | nil => exact (Except.ok.inj h).symm
  | cons s ss ih =>
    rw [agedOut] at h
    cases hs : cfg.aged s with
    | error e =>
      rw [hs] at h
      cases h
    | ok b =>
      cases hrest : cfg.agedOut ss with
      | error e =>
        rw [hs,hrest] at h
        cases h
      | ok rest =>
        rw [hs,hrest] at h
        rw [← Except.ok.inj h,List.filter_cons,← aged_ok hs,ih hrest]

/-- The shapes of the TTL tier, whenever there is a plan. -/
def aging (cfg : RetentionConfig) (shapes : List SweepShape) : List SweepShape :=
  if cfg.dormantTtl = 0 then [] else shapes.filter cfg.dormantOut ++ shapes.filter cfg.graceOut

lemma expired_ok {out : List SweepShape} (h : cfg.expired shapes = .ok out) : out = cfg.aging shapes := by
  rw [expired] at h
  rw [aging]
  split at h
  · next hzero => rw [if_pos hzero,← Except.ok.inj h]
  · next hzero =>
    rw [if_neg hzero]
    cases haged : cfg.agedOut shapes with
    | error e =>
      rw [haged] at h
      cases h
    | ok aged =>
      rw [haged] at h
      rw [← Except.ok.inj h,agedOut_ok haged]

end RetentionConfig

/-- What a tier of a cap does, be the cap set or not. -/
structure Tier (size : SweepShape → ℕ) (limit total : ℕ) (lru out rest : List SweepShape) (excess : Bool) : Prop where
  parts : out ++ rest = lru
  emptied : excess = true → rest = []
  within : limit = 0 ∨ excess = true ∨ total-(out.map size).sum ≤ limit
  needed : ∀ pre s post, out = pre ++ s :: post → limit < total-(pre.map size).sum

lemma tier_off (size : SweepShape → ℕ) {limit : ℕ} (total : ℕ) (lru : List SweepShape) (h : limit = 0) :
    Tier size limit total lru [] lru false :=
  ⟨rfl,fun hover => absurd hover Bool.false_ne_true,.inl h,fun pre s post hout => by simp at hout⟩

lemma tier_shed (size : SweepShape → ℕ) (limit total : ℕ) (lru : List SweepShape) :
    Tier size limit total lru (Shed.shed size limit total lru).1 (Shed.shed size limit total lru).2.1
      (Shed.shed size limit total lru).2.2 := by
  obtain ⟨hparts,hemptied,hwithin,hneeded⟩ := Shed.shed_spec size limit lru total
  refine ⟨hparts,hemptied,.inr ?_,hneeded⟩
  cases hover : (Shed.shed size limit total lru).2.2 with
  | true => exact .inl rfl
  | false => exact .inr (hwithin hover)

lemma countTier_tier (count : ℕ) (lru : List SweepShape) : Tier (fun _ => 1) cfg.maxShapes count lru
    (cfg.countTier count lru).1 (cfg.countTier count lru).2.1 (cfg.countTier count lru).2.2 := by
  rw [RetentionConfig.countTier]
  split
  · next h => exact tier_off _ _ _ h
  · exact tier_shed _ _ _ _

lemma byteTier_tier {left lru : List SweepShape} {r : List SweepShape × List SweepShape × Bool}
    (h : cfg.byteTier left lru = .ok r) : Tier (·.streamBytes) cfg.diskBudgetBytes (left.map (·.streamBytes)).sum lru
      r.1 r.2.1 r.2.2 := by
  rw [RetentionConfig.byteTier] at h
  split at h
  · next hzero =>
    rw [← Except.ok.inj h]
    exact tier_off _ _ _ hzero
  · rw [sumBytes] at h
    split at h
    · rw [← Except.ok.inj h]
      exact tier_shed _ _ _ _
    · cases h

/-- What is evicted before the caps are looked at. -/
def early (cfg : RetentionConfig) (shapes : List SweepShape) : List (String × EvictReason) :=
  (shapes.filterMap fun s => (cfg.replayRetirement s).map (s.id,·)) ++
    (cfg.aging shapes).map fun s => (s.id,EvictReason.dormantTtl)

/-- The dormant shapes that are left for the caps, the least recently read first. -/
def lruShapes (cfg : RetentionConfig) (shapes : List SweepShape) : List SweepShape :=
  ((remaining shapes (gone (early cfg shapes))).filter fun s => s.dormantFor.isSome).mergeSort
    fun a b => decide (b.idle ≤ a.idle)

/-- The tiers that a plan is made of. -/
structure Tiers (cfg : RetentionConfig) (shapes : List SweepShape) (plan : SweepPlan)
    (forCount rest forBytes left : List SweepShape) : Prop where
  count : Tier (fun _ => 1) cfg.maxShapes (shapes.length-(gone (early cfg shapes)).dedup.length)
    (lruShapes cfg shapes) forCount rest plan.overCapacity
  bytes : Tier (·.streamBytes) cfg.diskBudgetBytes
    ((remaining shapes (gone (early cfg shapes) ++ forCount.map (·.id))).map (·.streamBytes)).sum rest
    forBytes left plan.overBudget
  deactivate : plan.deactivate = if cfg.idleTimeout = 0 then [] else (shapes.filter cfg.idleOut).map (·.id)
  evict : plan.evict = early cfg shapes ++ forCount.map (fun s => (s.id,.maxShapes)) ++
    forBytes.map fun s => (s.id,.diskBudget)

lemma planSweep_cases {plan : SweepPlan} (h : planSweep cfg shapes = .ok plan) :
    ∃ forCount rest forBytes left, Tiers cfg shapes plan forCount rest forBytes left := by
  rw [planSweep] at h
  cases hexpired : cfg.expired shapes with
  | error e =>
    rw [hexpired] at h
    cases h
  | ok expired =>
    obtain rfl := RetentionConfig.expired_ok hexpired
    rw [hexpired] at h
    dsimp only [bind,Except.bind] at h
    split at h
    · cases h
    · next r hbytes =>
      obtain rfl := Except.ok.inj h
      exact ⟨_,_,_,_,countTier_tier _ _,byteTier_tier hbytes,rfl,rfl⟩

lemma gone_append (a b : List (String × EvictReason)) : gone (a ++ b) = gone a ++ gone b := List.map_append

lemma gone_map (ss : List SweepShape) (reason : EvictReason) :
    gone (ss.map fun s => (s.id,reason)) = ss.map (·.id) := by
  rw [gone,List.map_map]
  rfl

lemma mem_remaining {l : List String} {s : SweepShape} : s ∈ remaining shapes l ↔ s ∈ shapes ∧ s.id ∉ l := by
  rw [remaining,List.mem_filter,decide_eq_true_iff]

lemma remaining_cons (s : SweepShape) (l : List String) : remaining (s :: shapes) l =
    if s.id ∉ l then s :: remaining shapes l else remaining shapes l := by
  rw [remaining,List.filter_cons]
  simp only [decide_eq_true_eq]
  rfl

/-- A shape that goes too takes its size with it. -/
lemma sum_remaining_snoc (size : SweepShape → ℕ) (hids : (shapes.map (·.id)).Nodup) {s : SweepShape}
    (hs : s ∈ shapes) {l : List String} (hl : s.id ∉ l) :
    ((remaining shapes l).map size).sum = ((remaining shapes (l ++ [s.id])).map size).sum+size s := by
  induction shapes with
  | nil => cases hs
  | cons a as ih =>
    obtain ⟨hnew,hids⟩ := List.nodup_cons.mp hids
    rw [remaining_cons,remaining_cons]
    rcases List.mem_cons.mp hs with rfl | hs
    · have hsame : remaining as (l ++ [s.id]) = remaining as l := List.filter_congr fun b hb => by
        have hne : b.id ≠ s.id := fun heq => hnew (List.mem_map.mpr ⟨b,hb,heq⟩)
        simp [hne]
      rw [if_pos hl,if_neg (by simp),hsame,List.map_cons,List.sum_cons,Nat.add_comm]
    · have hne : a.id ≠ s.id := fun heq => hnew (List.mem_map.mpr ⟨s,hs,heq.symm⟩)
      by_cases ha : a.id ∉ l
      · rw [if_pos ha,if_pos (by simpa [hne] using ha),List.map_cons,List.map_cons,List.sum_cons,List.sum_cons,
          ih hids hs,Nat.add_assoc]
      · rw [if_neg ha,if_neg (by simpa [hne] using ha)]
        exact ih hids hs

lemma sum_remaining (size : SweepShape → ℕ) (hids : (shapes.map (·.id)).Nodup) {p : List SweepShape} :
    ∀ {l : List String}, (∀ s ∈ p, s ∈ remaining shapes l) → (p.map (·.id)).Nodup →
      ((remaining shapes l).map size).sum =
        ((remaining shapes (l ++ p.map (·.id))).map size).sum+(p.map size).sum := by
  induction p with
  | nil =>
    intro l _ _
    simp
  | cons s p ih =>
    intro l hp hnodup
    obtain ⟨hs,hp⟩ := List.forall_mem_cons.mp hp
    obtain ⟨hnew,hnodup⟩ := List.nodup_cons.mp hnodup
    obtain ⟨hmem,hl⟩ := mem_remaining.mp hs
    have hp' : ∀ r ∈ p, r ∈ remaining shapes (l ++ [s.id]) := by
      intro r hr
      obtain ⟨hrs,hrl⟩ := mem_remaining.mp (hp r hr)
      have hne : r.id ≠ s.id := fun heq => hnew (List.mem_map.mpr ⟨r,hr,heq⟩)
      exact mem_remaining.mpr ⟨hrs,by simp [hrl,hne]⟩
    rw [sum_remaining_snoc size hids hmem hl,ih hp' hnodup,List.map_cons,List.map_cons,List.sum_cons,
      List.append_assoc,List.singleton_append]
    omega

/-- Going once more changes nothing that is counted. -/
lemma length_remaining (hids : (shapes.map (·.id)).Nodup) {l : List String} (hl : ∀ id ∈ l, id ∈ shapes.map (·.id)) :
    shapes.length-l.dedup.length = (remaining shapes l).length := by
  have hout : ((shapes.filter fun s => !decide (s.id ∉ l)).map (·.id)).Perm l.dedup := by
    refine (List.perm_ext_iff_of_nodup ((List.filter_sublist.map _).nodup hids) (List.nodup_dedup l)).mpr fun id => ?_
    rw [List.mem_dedup,List.mem_map]
    constructor
    · rintro ⟨s,hs,rfl⟩
      simpa using (List.mem_filter.mp hs).2
    · intro hid
      obtain ⟨s,hs,rfl⟩ := List.mem_map.mp (hl id hid)
      exact ⟨s,List.mem_filter.mpr ⟨hs,by simpa using hid⟩,rfl⟩
  have hsplit := List.length_eq_length_filter_add (l := shapes) fun s => decide (s.id ∉ l)
  have hlength := hout.length_eq
  rw [List.length_map] at hlength
  change _ = (shapes.filter fun s => decide (s.id ∉ l)).length
  omega

lemma cut_right {α : Type*} {a b pre post : List α} {x : α} (h : a ++ b = pre ++ x :: post) (hx : x ∉ a) :
    ∃ pre', pre = a ++ pre' ∧ b = pre' ++ x :: post := by
  rcases List.append_eq_append_iff.mp h with ⟨l,rfl,rfl⟩ | ⟨l,rfl,hpost⟩
  · exact ⟨l,rfl,rfl⟩
  · cases l with
    | nil => exact ⟨[],by simp,by simpa using hpost.symm⟩
    | cons y l =>
      obtain ⟨rfl,-⟩ := List.cons.inj hpost
      exact absurd (List.mem_append_right _ List.mem_cons_self) hx

lemma cut_left {α : Type*} {a b pre post : List α} {x : α} (h : a ++ b = pre ++ x :: post) (hx : x ∉ b) :
    ∃ post', a = pre ++ x :: post' := by
  rcases List.append_eq_append_iff.mp h with ⟨l,rfl,rfl⟩ | ⟨l,rfl,hpost⟩
  · exact absurd (List.mem_append_right _ List.mem_cons_self) hx
  · cases l with
    | nil =>
      rw [List.nil_append] at hpost
      exact absurd (hpost ▸ List.mem_cons_self) hx
    | cons y l =>
      obtain ⟨rfl,-⟩ := List.cons.inj hpost
      exact ⟨l,rfl⟩

/-- Where one of the shapes of a tier is cut out of the plan, it is cut out of the tier. -/
lemma cut_map {ss : List SweepShape} {reason : EvictReason} {pre post : List (String × EvictReason)} {id : String}
    {reason' : EvictReason} (h : (ss.map fun s => (s.id,reason)) = pre ++ (id,reason') :: post) :
    ∃ p s q, ss = p ++ s :: q ∧ s.id = id ∧ pre = p.map fun s => (s.id,reason) := by
  obtain ⟨p,r,rfl,rfl,hr⟩ := List.map_eq_append_iff.mp h
  obtain ⟨s,q,rfl,hs,-⟩ := List.map_eq_cons_iff.mp hr
  exact ⟨p,s,q,rfl,(Prod.mk.inj hs).1,rfl⟩

lemma reason_early {e : String × EvictReason} (he : e ∈ early cfg shapes) :
    e.2 ≠ .maxShapes ∧ e.2 ≠ .diskBudget := by
  rcases List.mem_append.mp he with he | he
  · obtain ⟨s,-,hs⟩ := List.mem_filterMap.mp he
    obtain ⟨reason,hreason,rfl⟩ := Option.map_eq_some_iff.mp hs
    rw [RetentionConfig.replayRetirement] at hreason
    split at hreason
    · cases hreason
    · split at hreason
      · obtain rfl := Option.some.inj hreason
        exact ⟨by rintro ⟨⟩,by rintro ⟨⟩⟩
      · split at hreason
        · obtain rfl := Option.some.inj hreason
          exact ⟨by rintro ⟨⟩,by rintro ⟨⟩⟩
        · cases hreason
  · obtain ⟨s,-,rfl⟩ := List.mem_map.mp he
    exact ⟨by rintro ⟨⟩,by rintro ⟨⟩⟩

lemma gone_early : gone (early cfg shapes) =
    (shapes.filter fun s => (cfg.replayRetirement s).isSome).map (·.id) ++ (cfg.aging shapes).map (·.id) := by
  rw [early,gone_append,gone_map]
  congr 1
  induction shapes with
  | nil => rfl
  | cons s ss ih =>
    rw [List.filterMap_cons,List.filter_cons]
    cases cfg.replayRetirement s with
    | none => exact ih
    | some reason => exact congrArg (s.id :: ·) ih

lemma dormant_of_replay {s : SweepShape} (h : (cfg.replayRetirement s).isSome = true) : s.dormantFor.isSome = true := by
  rw [RetentionConfig.replayRetirement] at h
  cases hd : s.dormantFor with
  | none => simp [hd] at h
  | some d => rfl

lemma dormant_of_dormantOut {s : SweepShape} (h : cfg.dormantOut s = true) : s.dormantFor.isSome = true := by
  rw [RetentionConfig.dormantOut] at h
  cases hd : s.dormantFor with
  | none => simp [hd] at h
  | some d => rfl

lemma graceOut_iff {s : SweepShape} : cfg.graceOut s = true ↔ s.dormancyEligible = false ∧ s.inTransition = false ∧
    s.refcount = 0 ∧ cfg.idleTimeout+cfg.dormantTtl ≤ s.idle := by
  simp [RetentionConfig.graceOut,RetentionConfig.unparked,and_assoc]

lemma mem_gone_early {id : String} : id ∈ gone (early cfg shapes) ↔
    ∃ s ∈ shapes, s.id = id ∧ ((cfg.replayRetirement s).isSome = true ∨
      cfg.dormantTtl ≠ 0 ∧ (cfg.dormantOut s = true ∨ cfg.graceOut s = true)) := by
  rw [gone_early,RetentionConfig.aging]
  split
  · next hzero =>
    simp only [List.map_nil,List.append_nil,List.mem_map,List.mem_filter,hzero,ne_eq,not_true_eq_false,false_and,
      or_false]
    exact exists_congr fun s => by rw [and_assoc,and_comm (a := s.id = id)]
  · next hzero =>
    simp only [List.mem_append,List.mem_map,List.mem_filter,ne_eq,hzero,not_false_eq_true,true_and]
    constructor
    · rintro (⟨s,⟨hs,hr⟩,rfl⟩ | ⟨s,⟨hs,hr⟩ | ⟨hs,hr⟩,rfl⟩)
      · exact ⟨s,hs,rfl,.inl hr⟩
      · exact ⟨s,hs,rfl,.inr (.inl hr)⟩
      · exact ⟨s,hs,rfl,.inr (.inr hr)⟩
    · rintro ⟨s,hs,rfl,hr | hr | hr⟩
      · exact .inl ⟨s,⟨hs,hr⟩,rfl⟩
      · exact .inr ⟨s,.inl ⟨hs,hr⟩,rfl⟩
      · exact .inr ⟨s,.inr ⟨hs,hr⟩,rfl⟩

end

namespace SweepSnapshot
variable {cfg : RetentionConfig} (snap : SweepSnapshot)

lemma eq_of_id {s r : SweepShape} (hs : s ∈ snap.shapes) (hr : r ∈ snap.shapes) (h : s.id = r.id) : s = r :=
  List.inj_on_of_nodup_map snap.ids hs hr h

lemma nodup_filter (p : SweepShape → Bool) : ((snap.shapes.filter p).map (·.id)).Nodup :=
  (List.filter_sublist.map _).nodup snap.ids

lemma ne_of_filters {p q : SweepShape → Bool} (h : ∀ s ∈ snap.shapes, p s = true → q s = true → False) :
    ∀ a ∈ (snap.shapes.filter p).map (·.id), ∀ b ∈ (snap.shapes.filter q).map (·.id), a ≠ b := by
  intro a ha b hb hab
  obtain ⟨s,hs,rfl⟩ := List.mem_map.mp ha
  obtain ⟨r,hr,rfl⟩ := List.mem_map.mp hb
  obtain ⟨hsm,hsp⟩ := List.mem_filter.mp hs
  obtain ⟨hrm,hrq⟩ := List.mem_filter.mp hr
  obtain rfl := snap.eq_of_id hsm hrm hab
  exact h s hsm hsp hrq

lemma not_graceOut {s : SweepShape} (hs : s ∈ snap.shapes) (hd : s.dormantFor.isSome = true)
    (hg : cfg.graceOut s = true) : False := by
  have heligible := (snap.parked s hs hd).1
  rw [(graceOut_iff.mp hg).1] at heligible
  exact Bool.false_ne_true heligible

/-- Only replay and age together retire a shape twice. -/
lemma early_nodup : (gone (early cfg snap.shapes)).Nodup ↔ ¬RetiredTwice cfg snap.shapes := by
  rw [gone_early,RetentionConfig.aging,RetiredTwice]
  split
  · next hzero => simpa [hzero] using snap.nodup_filter _
  · next hzero =>
    have hgrace : ∀ s ∈ snap.shapes, cfg.dormantOut s = true → cfg.graceOut s = true → False := fun s hs hd =>
      snap.not_graceOut hs (dormant_of_dormantOut hd)
    rw [List.map_append,List.nodup_append,List.nodup_append]
    constructor
    · rintro ⟨-,-,hne⟩ ⟨-,s,hs,hreplay,hout⟩
      exact hne s.id (List.mem_map_of_mem (List.mem_filter.mpr ⟨hs,hreplay⟩)) s.id
        (List.mem_append_left _ (List.mem_map_of_mem (List.mem_filter.mpr ⟨hs,hout⟩))) rfl
    · intro hnot
      refine ⟨snap.nodup_filter _,⟨snap.nodup_filter _,snap.nodup_filter _,snap.ne_of_filters hgrace⟩,?_⟩
      intro a ha b hb
      rcases List.mem_append.mp hb with hb | hb
      · exact snap.ne_of_filters (fun s hs hr hd => hnot ⟨hzero,s,hs,hr,hd⟩) a ha b hb
      · exact snap.ne_of_filters (fun s hs hr => snap.not_graceOut hs (dormant_of_replay hr)) a ha b hb

lemma mem_lruShapes {s : SweepShape} : s ∈ lruShapes cfg snap.shapes ↔
    s ∈ snap.shapes ∧ s.id ∉ gone (early cfg snap.shapes) ∧ s.dormantFor.isSome = true := by
  rw [lruShapes,List.mem_mergeSort,List.mem_filter,mem_remaining,and_assoc]

lemma lru_sorted : (lruShapes cfg snap.shapes).Pairwise fun a b => b.idle ≤ a.idle := by
  refine (List.pairwise_mergeSort ?_ ?_ _).imp fun h => of_decide_eq_true h
  · intro a b c hab hbc
    exact decide_eq_true ((of_decide_eq_true hbc).trans (of_decide_eq_true hab))
  · intro a b
    simpa using Nat.le_total b.idle a.idle

lemma lru_nodup : ((lruShapes cfg snap.shapes).map (·.id)).Nodup := by
  refine (((List.mergeSort_perm _ _).map _).nodup_iff).mpr ?_
  exact ((List.filter_sublist.trans List.filter_sublist).map _).nodup snap.ids

/-- A shape of the row that is taken from the front is the least recently read one that is left. -/
lemma lru_first {p q : List SweepShape} {s : SweepShape} (h : lruShapes cfg snap.shapes = p ++ s :: q)
    {r : SweepShape} (hr : r ∈ snap.shapes) (hd : r.dormantFor.isSome = true)
    (hgone : r.id ∉ gone (early cfg snap.shapes) ++ p.map (·.id)) : r.idle ≤ s.idle := by
  rw [List.mem_append,not_or] at hgone
  have hmem := snap.mem_lruShapes.mpr ⟨hr,hgone.1,hd⟩
  have hsorted : (lruShapes cfg snap.shapes).Pairwise fun a b => b.idle ≤ a.idle := snap.lru_sorted
  rw [h] at hmem hsorted
  rcases List.mem_append.mp hmem with hp | hsq
  · exact absurd (List.mem_map_of_mem hp) hgone.2
  · rcases List.mem_cons.mp hsq with rfl | hq
    · exact le_rfl
    · exact (List.pairwise_cons.mp (List.pairwise_append.mp hsorted).2.1).1 r hq

/-- What some of the row leaves, when the early evictions are carried out too. -/
lemma sum_after (size : SweepShape → ℕ) {p q : List SweepShape} (h : lruShapes cfg snap.shapes = p ++ q) :
    ((remaining snap.shapes (gone (early cfg snap.shapes))).map size).sum =
      ((remaining snap.shapes (gone (early cfg snap.shapes) ++ p.map (·.id))).map size).sum+(p.map size).sum := by
  refine sum_remaining size snap.ids (fun s hs => ?_) ?_
  · obtain ⟨hmem,hgone,-⟩ := snap.mem_lruShapes.mp (h ▸ List.mem_append_left q hs)
    exact mem_remaining.mpr ⟨hmem,hgone⟩
  · have hnodup : ((lruShapes cfg snap.shapes).map (·.id)).Nodup := snap.lru_nodup
    rw [h,List.map_append] at hnodup
    exact (List.nodup_append.mp hnodup).1

lemma sum_after_both (size : SweepShape → ℕ) {p q r : List SweepShape}
    (h : lruShapes cfg snap.shapes = (p ++ q) ++ r) :
    ((remaining snap.shapes (gone (early cfg snap.shapes) ++ p.map (·.id))).map size).sum =
      ((remaining snap.shapes (gone (early cfg snap.shapes) ++ (p ++ q).map (·.id))).map size).sum +
        (q.map size).sum := by
  have hfirst := snap.sum_after size (h.trans (List.append_assoc p q r))
  have hboth := snap.sum_after size h
  have hsum : ((p ++ q).map size).sum = (p.map size).sum+(q.map size).sum := by rw [List.map_append,List.sum_append]
  omega

/-- More gone, less left. -/
lemma sum_le (size : SweepShape → ℕ) (l l' : List String) :
    ((remaining snap.shapes (l ++ l')).map size).sum ≤ ((remaining snap.shapes l).map size).sum := by
  refine List.Sublist.sum_le_sum (List.Sublist.map _ ?_) fun _ _ => Nat.zero_le _
  refine List.monotone_filter_right snap.shapes fun s hs => ?_
  simp only [decide_eq_true_eq,List.mem_append,not_or] at hs ⊢
  exact hs.1

lemma sum_ones (ss : List SweepShape) : (ss.map fun _ => 1).sum = ss.length := by simp

/-- How many shapes there are for the count cap. -/
lemma count_early : snap.shapes.length-(gone (early cfg snap.shapes)).dedup.length =
    (remaining snap.shapes (gone (early cfg snap.shapes))).length := by
  refine length_remaining snap.ids fun id hid => ?_
  obtain ⟨s,hs,rfl,-⟩ := mem_gone_early.mp hid
  exact List.mem_map_of_mem hs

end SweepSnapshot

namespace Tiers
variable {cfg : RetentionConfig} {snap : SweepSnapshot} {plan : SweepPlan}
  {forCount rest forBytes left : List SweepShape} (t : Tiers cfg snap.shapes plan forCount rest forBytes left)
include t

lemma lru : forCount ++ (forBytes ++ left) = lruShapes cfg snap.shapes := by rw [t.bytes.parts,t.count.parts]

lemma gone_eq : gone plan.evict =
    gone (early cfg snap.shapes) ++ (forCount ++ forBytes).map (·.id) := by
  rw [t.evict,gone_append,gone_append,gone_map,gone_map,List.map_append,List.append_assoc]

lemma mem_of_tier {s : SweepShape} (hs : s ∈ forCount ++ forBytes) :
    s ∈ snap.shapes ∧ s.id ∉ gone (early cfg snap.shapes) ∧ s.dormantFor.isSome = true := by
  refine snap.mem_lruShapes.mp ?_
  rw [← t.lru,← List.append_assoc]
  exact List.mem_append_left _ hs

lemma entitled {id : String} (hid : id ∈ gone plan.evict) : ∃ s ∈ snap.shapes, s.id = id ∧
    (s.dormantFor.isSome = true ∨ cfg.graceOut s = true) := by
  rw [t.gone_eq] at hid
  rcases List.mem_append.mp hid with hid | hid
  · obtain ⟨s,hs,rfl,hr | ⟨-,hd | hg⟩⟩ := mem_gone_early.mp hid
    · exact ⟨s,hs,rfl,.inl (dormant_of_replay hr)⟩
    · exact ⟨s,hs,rfl,.inl (dormant_of_dormantOut hd)⟩
    · exact ⟨s,hs,rfl,.inr hg⟩
  · obtain ⟨s,hs,rfl⟩ := List.mem_map.mp hid
    obtain ⟨hmem,-,hd⟩ := t.mem_of_tier hs
    exact ⟨s,hmem,rfl,.inl hd⟩

lemma onceEvicted : (gone plan.evict).Nodup ↔ (gone (early cfg snap.shapes)).Nodup := by
  rw [t.gone_eq,List.nodup_append]
  refine and_iff_left ⟨?_,fun a ha b hb hab => ?_⟩
  · have hnodup : ((lruShapes cfg snap.shapes).map (·.id)).Nodup := snap.lru_nodup
    rw [← t.lru,← List.append_assoc,List.map_append] at hnodup
    exact (List.nodup_append.mp hnodup).1
  · obtain ⟨s,hs,rfl⟩ := List.mem_map.mp hb
    exact (t.mem_of_tier hs).2.1 (hab ▸ ha)

lemma onceDeactivated : plan.deactivate.Nodup := by
  rw [t.deactivate]
  split
  · exact List.nodup_nil
  · exact snap.nodup_filter _

/-- A shape that goes dormant is parkable and not dormant yet. -/
lemma oneAction {id : String} (hid : id ∈ plan.deactivate) : id ∉ gone plan.evict := by
  intro hgone
  obtain ⟨s,hs,rfl,hwhy⟩ := t.entitled hgone
  rw [t.deactivate] at hid
  split at hid
  · cases hid
  · obtain ⟨r,hr,hrs⟩ := List.mem_map.mp hid
    obtain ⟨hrm,hidle⟩ := List.mem_filter.mp hr
    obtain rfl := snap.eq_of_id hrm hs hrs
    simp only [RetentionConfig.idleOut,Bool.and_eq_true] at hidle
    obtain ⟨⟨⟨⟨heligible,-⟩,hnone⟩,-⟩,-⟩ := hidle
    rcases hwhy with hd | hg
    · rw [Option.isNone_iff_eq_none.mp hnone] at hd
      cases hd
    · rw [(graceOut_iff.mp hg).1] at heligible
      cases heligible

/-- When the row is used up, every dormant shape is gone. -/
lemma emptied (hleft : rest = [] ∨ left = []) {s : SweepShape} (hs : s ∈ snap.shapes)
    (hd : s.dormantFor.isSome = true) : s.id ∈ gone plan.evict := by
  have hall : forCount ++ forBytes = lruShapes cfg snap.shapes := by
    rw [← t.lru]
    rcases hleft with hrest | hleft
    · obtain ⟨hbytes,hnone⟩ := List.append_eq_nil_iff.mp (t.bytes.parts.trans hrest)
      rw [hbytes,hnone]
      rfl
    · rw [hleft,List.append_nil]
  rw [t.gone_eq,hall,List.mem_append]
  by_cases hgone : s.id ∈ gone (early cfg snap.shapes)
  · exact .inl hgone
  · exact .inr (List.mem_map_of_mem (snap.mem_lruShapes.mpr ⟨hs,hgone,hd⟩))

lemma countMet : cfg.maxShapes = 0 ∨ (remaining snap.shapes (gone plan.evict)).length ≤ cfg.maxShapes ∨
    (∀ s ∈ snap.shapes, s.dormantFor.isSome = true → s.id ∈ gone plan.evict) ∧ plan.overCapacity = true := by
  rcases t.count.within with hzero | hover | hfits
  · exact .inl hzero
  · exact .inr (.inr ⟨fun s hs hd => t.emptied (.inl (t.count.emptied hover)) hs hd,hover⟩)
  · refine .inr (.inl ?_)
    have hafter := snap.sum_after (fun _ => 1) t.lru.symm
    have hmore := snap.sum_le (fun _ => 1) (gone (early cfg snap.shapes) ++ forCount.map (·.id)) (forBytes.map (·.id))
    rw [snap.count_early] at hfits
    simp only [SweepSnapshot.sum_ones] at hfits hafter hmore
    rw [t.gone_eq,List.map_append,← List.append_assoc]
    omega

lemma bytesMet : cfg.diskBudgetBytes = 0 ∨
    ((remaining snap.shapes (gone plan.evict)).map (·.streamBytes)).sum ≤ cfg.diskBudgetBytes ∨
    (∀ s ∈ snap.shapes, s.dormantFor.isSome = true → s.id ∈ gone plan.evict) ∧ plan.overBudget = true := by
  rcases t.bytes.within with hzero | hover | hfits
  · exact .inl hzero
  · exact .inr (.inr ⟨fun s hs hd => t.emptied (.inr (t.bytes.emptied hover)) hs hd,hover⟩)
  · refine .inr (.inl ?_)
    have hafter := snap.sum_after_both (·.streamBytes) (t.lru.symm.trans (List.append_assoc _ _ _).symm)
    rw [t.gone_eq]
    omega

/-- An eviction for a cap is needed, and is of the least recently read shape. -/
lemma capped {pre post : List (String × EvictReason)} {id : String} {reason : EvictReason}
    (h : plan.evict = pre ++ (id,reason) :: post) (hreason : reason = .maxShapes ∨ reason = .diskBudget) :
    Exceeds cfg (remaining snap.shapes (gone pre)) reason ∧ ∃ s ∈ snap.shapes, s.id = id ∧
      s.dormantFor.isSome = true ∧
        ∀ r ∈ snap.shapes, r.dormantFor.isSome = true → r.id ∉ gone pre → r.idle ≤ s.idle := by
  rw [t.evict] at h
  have hearly : (id,reason) ∉ early cfg snap.shapes := fun hmem => by
    obtain ⟨hcount,hbytes⟩ := reason_early hmem
    exact hreason.elim hcount hbytes
  rcases hreason with rfl | rfl
  · have hother : (id,EvictReason.maxShapes) ∉ forBytes.map fun s => (s.id,EvictReason.diskBudget) := fun hmem => by
      obtain ⟨s,-,hs⟩ := List.mem_map.mp hmem
      cases (Prod.mk.inj hs).2
    obtain ⟨post',h'⟩ := cut_left h hother
    obtain ⟨pre',rfl,hcut⟩ := cut_right h' hearly
    obtain ⟨p,s,q,rfl,rfl,rfl⟩ := cut_map hcut
    have hrow : lruShapes cfg snap.shapes = p ++ s :: (q ++ (forBytes ++ left)) := by
      rw [← t.lru,List.append_assoc,List.cons_append]
    obtain ⟨hmem,-,hd⟩ := t.mem_of_tier (s := s) (by simp)
    rw [gone_append,gone_map]
    refine ⟨?_,s,hmem,rfl,hd,fun r hr hrd hgone => snap.lru_first hrow hr hrd hgone⟩
    have hneeded := t.count.needed p s q rfl
    have hafter := snap.sum_after (fun _ => 1) hrow
    rw [snap.count_early] at hneeded
    simp only [SweepSnapshot.sum_ones] at hneeded hafter
    rw [Exceeds]
    omega
  · have hother : (id,EvictReason.diskBudget) ∉ early cfg snap.shapes ++
        forCount.map fun s => (s.id,EvictReason.maxShapes) := fun hmem => by
      rcases List.mem_append.mp hmem with hmem | hmem
      · exact hearly hmem
      · obtain ⟨s,-,hs⟩ := List.mem_map.mp hmem
        cases (Prod.mk.inj hs).2
    obtain ⟨pre',rfl,hcut⟩ := cut_right h hother
    obtain ⟨p,s,q,rfl,rfl,rfl⟩ := cut_map hcut
    have hrow : lruShapes cfg snap.shapes = (forCount ++ p) ++ s :: (q ++ left) := by
      rw [← t.lru]
      simp
    obtain ⟨hmem,-,hd⟩ := t.mem_of_tier (s := s) (by simp)
    have hgone : gone (early cfg snap.shapes ++ forCount.map (fun s => (s.id,EvictReason.maxShapes)) ++
        p.map fun s => (s.id,EvictReason.diskBudget)) =
          gone (early cfg snap.shapes) ++ (forCount ++ p).map (·.id) := by
      rw [gone_append,gone_append,gone_map,gone_map,List.map_append,List.append_assoc]
    rw [hgone]
    refine ⟨?_,s,hmem,rfl,hd,fun r hr hrd hgone => snap.lru_first hrow hr hrd hgone⟩
    have hneeded := t.bytes.needed p s q rfl
    have hafter := snap.sum_after_both (·.streamBytes) hrow
    rw [Exceeds]
    omega

end Tiers

section
variable {cfg : RetentionConfig} {snap : SweepSnapshot} {plan : SweepPlan}

/-- Only a shape that is retired twice breaks the policy. -/
theorem honours_iff (h : planSweep cfg snap.shapes = .ok plan) :
    Honours cfg snap.shapes plan ↔ ¬RetiredTwice cfg snap.shapes := by
  obtain ⟨forCount,rest,forBytes,left,t⟩ := planSweep_cases h
  rw [← snap.early_nodup,← t.onceEvicted]
  refine ⟨Honours.onceEvicted,fun honce => ⟨t.onceDeactivated,honce,fun _ => t.oneAction,fun id hid => ?_,t.countMet,
    t.bytesMet,fun _ _ _ _ hcut hreason => t.capped hcut hreason⟩⟩
  obtain ⟨s,hs,hid,hwhy⟩ := t.entitled hid
  exact ⟨s,hs,hid,hwhy.imp_right graceOut_iff.mp⟩

/-- The two times add up, where a shape is aged by both. -/
def TimesFit (cfg : RetentionConfig) (shapes : List SweepShape) : Prop :=
  cfg.dormantTtl = 0 ∨ (∀ s ∈ shapes, RetentionConfig.unparked s = false) ∨ cfg.idleTimeout+cfg.dormantTtl < 2^64*10^9

lemma agedOut_returns {shapes : List SweepShape} (h : ∀ s ∈ shapes, ∃ b, cfg.aged s = .ok b) :
    ∃ out, cfg.agedOut shapes = .ok out := by
  induction shapes with
  | nil => exact ⟨[],rfl⟩
  | cons s ss ih =>
    obtain ⟨⟨b,hb⟩,hss⟩ := List.forall_mem_cons.mp h
    obtain ⟨out,hout⟩ := ih hss
    exact ⟨if b then s :: out else out,by rw [RetentionConfig.agedOut,hb,hout]; rfl⟩

lemma expired_returns {shapes : List SweepShape} (h : TimesFit cfg shapes) :
    ∃ out, cfg.expired shapes = .ok out := by
  rw [RetentionConfig.expired]
  split
  · exact ⟨[],rfl⟩
  · next hzero =>
    obtain ⟨out,hout⟩ : ∃ out, cfg.agedOut shapes = .ok out := by
      refine agedOut_returns fun s hs => ?_
      rw [RetentionConfig.aged]
      rcases h with hnone | hnone | hfits
      · exact absurd hnone hzero
      · rw [hnone s hs]
        exact ⟨false,rfl⟩
      · split
        · exact ⟨_,by rw [addDurations,if_pos hfits]; rfl⟩
        · exact ⟨false,rfl⟩
    exact ⟨_,by rw [hout]; rfl⟩

/-- A sweep whose sums do not overflow has a plan. -/
theorem planSweep_returns {shapes : List SweepShape} (htimes : TimesFit cfg shapes)
    (hbytes : (shapes.map (·.streamBytes)).sum < 2^64) : ∃ plan, planSweep cfg shapes = .ok plan := by
  obtain ⟨expired,hexpired⟩ := expired_returns htimes
  have htier : ∀ l lru, ∃ r, cfg.byteTier (remaining shapes l) lru = .ok r := by
    intro l lru
    have hfits : ((remaining shapes l).map (·.streamBytes)).sum < 2^64 :=
      (List.Sublist.sum_le_sum (List.filter_sublist.map _) fun _ _ => Nat.zero_le _).trans_lt hbytes
    rw [RetentionConfig.byteTier,sumBytes,if_pos hfits]
    split
    · exact ⟨_,rfl⟩
    · exact ⟨_,rfl⟩
  rw [planSweep,hexpired]
  dsimp only [bind,Except.bind]
  obtain ⟨r,hr⟩ := htier _ _
  rw [hr]
  exact ⟨_,rfl⟩

end

/-- Every plan of a sweep keeps to the policy exactly when no dormant shape is retired both for its replay and for
its age, and there is a plan whenever no sum overflows. -/
theorem planSweep_honours (cfg : RetentionConfig) (snap : SweepSnapshot) :
    (∀ plan, planSweep cfg snap.shapes = .ok plan →
      (Honours cfg snap.shapes plan ↔ ¬RetiredTwice cfg snap.shapes)) ∧
    (TimesFit cfg snap.shapes → (snap.shapes.map (·.streamBytes)).sum < 2^64 →
      ∃ plan, planSweep cfg snap.shapes = .ok plan) :=
  ⟨fun _ h => honours_iff h,planSweep_returns⟩

/-- A shape that has been dormant for a while. -/
def sampleDormant (idle dormant : ℕ) (span : Option ℕ) : SweepShape :=
  ⟨"s1",0,idle,some dormant,false,true,30,span,false,none⟩

def sampleActive : SweepShape := ⟨"s2",0,0,none,false,true,80,none,false,none⟩

def sampleRetention : RetentionConfig := ⟨10,100,1000,4,1,0⟩

theorem sample_planSweep_honours : ∃ plan, planSweep sampleRetention [sampleActive,sampleDormant 50 20 (some 0)] =
    .ok plan ∧ Honours sampleRetention [sampleActive,sampleDormant 50 20 (some 0)] plan := by
  let snap : SweepSnapshot := ⟨[sampleActive,sampleDormant 50 20 (some 0)],by decide,by decide⟩
  obtain ⟨plan,hplan⟩ := (planSweep_honours sampleRetention snap).2 (.inr (.inl (by decide))) (by decide)
  refine ⟨plan,hplan,((planSweep_honours sampleRetention snap).1 plan hplan).mpr ?_⟩
  rintro ⟨-,h⟩
  revert h
  decide

/-- A dormant shape whose segment is gone and whose time is up is evicted twice. -/
theorem sample_retired_twice : ¬∀ (cfg : RetentionConfig) (snap : SweepSnapshot) (plan : SweepPlan),
    planSweep cfg snap.shapes = .ok plan → Honours cfg snap.shapes plan := by
  intro h
  let snap : SweepSnapshot := ⟨[sampleDormant 200 100 none],by decide,by decide⟩
  obtain ⟨plan,hplan⟩ : ∃ plan, planSweep sampleRetention snap.shapes = .ok plan :=
    planSweep_returns (.inr (.inl (by decide))) (by decide)
  refine (honours_iff hplan).mp (h sampleRetention snap plan hplan) ⟨by decide,?_⟩
  exact ⟨sampleDormant 200 100 none,.head _,by decide,by decide⟩

end ElectricCircuits
