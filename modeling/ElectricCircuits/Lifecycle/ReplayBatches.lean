import Mathlib.Logic.Function.Basic
import Mathlib.Logic.Relation
import Mathlib.Algebra.BigOperators.Group.Finset.Basic
import Mathlib.Tactic.Common

/-! Replays of dormant shapes that go together: requests under one key join a batch, and the task that leads it
takes the targets, scans for all of them and answers each. -/
namespace ElectricCircuits

/-- The task behind a batch, from its sleep to its last answer. -/
inductive BatchLeader (κ T ε : Type) where
  | absent
  | sleeping (key : κ)
  | removed
  | waiting (targets : List T)
  | scanning (targets : List T)
  | sending (permit : Bool) (answers : List (T × Except ε ℕ))
  | done

namespace BatchLeader
variable {κ T ε : Type}

/-- Has the leader taken the targets? -/
def took : BatchLeader κ T ε → Bool
  | absent | sleeping _ | removed => false
  | waiting _ | scanning _ | sending _ _ | done => true

/-- The targets taken and not scanned. -/
def inHand : BatchLeader κ T ε → List T
  | waiting targets | scanning targets => targets
  | _ => []

/-- The answers not sent. -/
def owed : BatchLeader κ T ε → List (T × Except ε ℕ)
  | sending _ answers => answers
  | _ => []

def hasPermit : BatchLeader κ T ε → Bool
  | scanning _ => true
  | sending permit _ => permit
  | _ => false

/-- What is left for the leader to do. -/
def work : BatchLeader κ T ε → ℕ
  | absent | done => 0
  | sleeping _ => 6
  | removed => 5
  | waiting targets => targets.length+4
  | scanning targets => targets.length+3
  | sending _ answers => answers.length+1

end BatchLeader

/-- A call of `replay_coalesced`: it has its batch, then its target is in it. -/
inductive ReplayCall where
  | idle
  | joined (batch : ℕ)
  | queued (batch : ℕ)
  deriving DecidableEq

def ReplayCall.work : ReplayCall → ℕ
  | joined _ => 2
  | idle | queued _ => 0

/-- The table of batches by key, the targets of each batch and its leader; what the replays came to, target by
target, and the answers. -/
structure ReplayBatches (κ T ε : Type) where
  batches : κ → Option ℕ
  targets : ℕ → List T
  leader : ℕ → BatchLeader κ T ε
  call : T → ReplayCall
  fresh : ℕ
  permits : ℕ
  closed : Bool
  scanned : List (T × Except ε ℕ)
  answered : List (T × Except ε ℕ)

namespace ReplayBatches
variable {κ T ε : Type}

/-- A replay's results: for each target its error, or what it emitted. -/
def replayResults (errors : List (Option ε)) (emitted : List ℕ) : List (Except ε ℕ) :=
  List.zipWith (fun err n => err.elim (.ok n) .error) errors emitted

inductive Act (T ε : Type) where
  | lookup (t : T)
  | create (t : T)
  | push (t : T)
  | remove (b : ℕ)
  | take (b : ℕ)
  | permit (b : ℕ)
  | refuse (b : ℕ) (e : ε)
  | scan (b : ℕ) (errors : List (Option ε)) (emitted : List ℕ)
  | send (b : ℕ)
  | finish (b : ℕ)

/-- Nobody asks for a replay yet; there is a permit at least. -/
def start (permits : ℕ) : ReplayBatches κ T ε where
  batches _ := none
  targets _ := []
  leader _ := .absent
  call _ := .idle
  fresh := 0
  permits := max permits 1
  closed := false
  scanned := []
  answered := []

section Step
variable [DecidableEq κ] [DecidableEq T] (key : T → κ)

/-- One locked section, or one step of a leader, at a time. -/
inductive Step : ReplayBatches κ T ε → Act T ε → ReplayBatches κ T ε → Prop
  | lookup {s t b} (hcall : s.call t = .idle) (hbatch : s.batches (key t) = some b) :
    Step s (.lookup t) { s with call := Function.update s.call t (.joined b) }
  | create {s t} (hcall : s.call t = .idle) (hbatch : s.batches (key t) = none) :
    Step s (.create t) { s with
      batches := Function.update s.batches (key t) (some s.fresh)
      targets := Function.update s.targets s.fresh []
      leader := Function.update s.leader s.fresh (.sleeping (key t))
      call := Function.update s.call t (.joined s.fresh)
      fresh := s.fresh+1 }
  | push {s t b} (hcall : s.call t = .joined b) :
    Step s (.push t) { s with
      targets := Function.update s.targets b (s.targets b ++ [t])
      call := Function.update s.call t (.queued b) }
  | remove {s b k} (hleader : s.leader b = .sleeping k) :
    Step s (.remove b) { s with
      batches := Function.update s.batches k none
      leader := Function.update s.leader b .removed }
  | take {s b} (hleader : s.leader b = .removed) :
    Step s (.take b) { s with
      targets := Function.update s.targets b []
      leader := Function.update s.leader b (.waiting (s.targets b)) }
  | permit {s b ts} (hleader : s.leader b = .waiting ts) (hopen : s.closed = false) (hfree : 0 < s.permits) :
    Step s (.permit b) { s with
      permits := s.permits-1
      leader := Function.update s.leader b (.scanning ts) }
  | refuse {s b ts e} (hleader : s.leader b = .waiting ts) (hclosed : s.closed = true) :
    Step s (.refuse b e) { s with
      leader := Function.update s.leader b (.sending false (ts.map fun t => (t,.error e))) }
  | scan {s b ts errors emitted} (hleader : s.leader b = .scanning ts) (herrors : errors.length = ts.length)
      (hemitted : emitted.length = ts.length) :
    Step s (.scan b errors emitted) { s with
      scanned := s.scanned ++ ts.zip (replayResults errors emitted)
      leader := Function.update s.leader b (.sending true (ts.zip (replayResults errors emitted))) }
  | send {s b permit p ps} (hleader : s.leader b = .sending permit (p :: ps)) :
    Step s (.send b) { s with
      answered := s.answered ++ [p]
      leader := Function.update s.leader b (.sending permit ps) }
  | finish {s b permit} (hleader : s.leader b = .sending permit []) :
    Step s (.finish b) { s with
      permits := s.permits + permit.toNat
      leader := Function.update s.leader b .done }

end Step

/-- How often a batch or its leader has a target that is not answered. -/
def holds [DecidableEq T] (s : ReplayBatches κ T ε) (b : ℕ) (t : T) : ℕ :=
  (s.targets b).count t + (s.leader b).inHand.count t + ((s.leader b).owed.map (·.1)).count t

/-- The replays that scanned a target. -/
def scans [DecidableEq T] (s : ReplayBatches κ T ε) (t : T) : ℕ := (s.scanned.map (·.1)).count t

/-- The answers that a target got. -/
def answers [DecidableEq T] (s : ReplayBatches κ T ε) (t : T) : ℕ := (s.answered.map (·.1)).count t

/-- A target that is put into a batch is in one place, and scanned as often as it is owed an answer or has one. -/
structure Counted [DecidableEq T] (s : ReplayBatches κ T ε) : Prop where
  here : ∀ t b, s.call t = .queued b → s.holds b t + s.answers t = 1
  nowhere : ∀ t b, s.call t ≠ .queued b → s.holds b t = 0
  unasked : ∀ t, (∀ b, s.call t ≠ .queued b) → s.answers t = 0 ∧ s.scans t = 0
  once : ∀ t b, s.call t = .queued b → s.scans t = ((s.leader b).owed.map (·.1)).count t + s.answers t

/-- A batch in the table is one whose leader sleeps, and no call is without a leader. -/
structure Wired (s : ReplayBatches κ T ε) : Prop where
  filed : ∀ k b, s.batches k = some b → s.leader b = .sleeping k
  born : ∀ t b, s.call t = .joined b ∨ s.call t = .queued b → s.leader b ≠ .absent
  unborn : ∀ b, s.fresh ≤ b → s.leader b = .absent
  openly : s.closed = false
  permit : s.permits = 0 → ∃ b, (s.leader b).hasPermit = true

/-- Answers are what a replay came to. -/
def Truthful (s : ReplayBatches κ T ε) : Prop := ∀ p b, p ∈ (s.leader b).owed ∨ p ∈ s.answered → p ∈ s.scanned

section Frames
variable [DecidableEq T] {s s' : ReplayBatches κ T ε}

lemma holds_congr {b : ℕ} (htargets : s'.targets b = s.targets b) (hleader : s'.leader b = s.leader b) (t : T) :
    s'.holds b t = s.holds b t := by
  rw [holds,holds,htargets,hleader]

/-- Where targets and owed answers of each batch are the same, so is the count. -/
lemma holds_update (b : ℕ) (ts : List T) (l : BatchLeader κ T ε)
    (htargets : ∀ b', s'.targets b' = Function.update s.targets b ts b')
    (hleader : ∀ b', s'.leader b' = Function.update s.leader b l b')
    (hsame : ∀ t, ts.count t + l.inHand.count t + (l.owed.map (·.1)).count t = s.holds b t) (b' : ℕ) (t : T) :
    s'.holds b' t = s.holds b' t := by
  by_cases heq : b' = b
  · subst heq
    rw [← hsame,holds,htargets,hleader,Function.update_self,Function.update_self]
  · exact holds_congr ((htargets b').trans (Function.update_of_ne heq _ _))
      ((hleader b').trans (Function.update_of_ne heq _ _)) t

/-- A step that moves targets about and answers none keeps the count. -/
lemma Counted.moved (hs : s.Counted) (hcall : ∀ t b, s'.call t = .queued b ↔ s.call t = .queued b)
    (hholds : ∀ b t, s'.holds b t = s.holds b t) (hanswers : ∀ t, s'.answers t = s.answers t)
    (hscans : ∀ t b, s.call t = .queued b → s'.scans t + ((s.leader b).owed.map (·.1)).count t =
      s.scans t + ((s'.leader b).owed.map (·.1)).count t)
    (hunasked : ∀ t, (∀ b, s.call t ≠ .queued b) → s'.scans t = s.scans t) : s'.Counted where
  here t b ht := by
    rw [hholds,hanswers]
    exact hs.here t b ((hcall t b).mp ht)
  nowhere t b ht := by
    rw [hholds]
    exact hs.nowhere t b fun h => ht ((hcall t b).mpr h)
  unasked t ht := by
    have ht' : ∀ b, s.call t ≠ .queued b := fun b h => ht b ((hcall t b).mpr h)
    rw [hanswers,hunasked t ht']
    exact hs.unasked t ht'
  once t b ht := by
    have hqueued := (hcall t b).mp ht
    have hscan := hscans t b hqueued
    have honce := hs.once t b hqueued
    rw [hanswers]
    omega

/-- A target that is put into a batch is there, and nowhere else. -/
lemma Counted.push (hs : s.Counted) {t : T} {b : ℕ} (hcall : s.call t = .joined b) : ({ s with
    targets := Function.update s.targets b (s.targets b ++ [t])
    call := Function.update s.call t (.queued b) } : ReplayBatches κ T ε).Counted := by
  have hidle : ∀ b', s.call t ≠ .queued b' := by
    rw [hcall]
    exact fun _ h => by cases h
  have hholds : ∀ b' t', t' ≠ t ∨ b' ≠ b → holds { s with
      targets := Function.update s.targets b (s.targets b ++ [t])
      call := Function.update s.call t (.queued b) } b' t' = s.holds b' t' := by
    intro b' t' hne
    by_cases hb : b' = b
    · subst hb
      have ht : t ≠ t' := fun h => hne.elim (fun h' => h' h.symm) fun h' => h' rfl
      simp [holds,List.count_cons_of_ne ht]
    · simp [holds,Function.update_of_ne hb]
  constructor
  · intro t' b' ht'
    by_cases ht : t' = t
    · subst ht
      obtain rfl : b = b' := by simpa using ht'
      have hnone := hs.nowhere t' b (hidle b)
      have hanswers := (hs.unasked t' hidle).1
      simp only [holds,answers,Function.update_self,List.count_append,List.count_singleton_self] at hnone hanswers ⊢
      omega
    · rw [hholds b' t' (.inl ht)]
      exact hs.here t' b' (by simpa [Function.update_of_ne ht] using ht')
  · intro t' b' ht'
    by_cases ht : t' = t
    · subst ht
      have hb : b' ≠ b := by
        rintro rfl
        exact ht' (Function.update_self ..)
      rw [hholds b' t' (.inr hb)]
      exact hs.nowhere t' b' (hidle b')
    · rw [hholds b' t' (.inl ht)]
      exact hs.nowhere t' b' (by simpa [Function.update_of_ne ht] using ht')
  · intro t' ht'
    have ht : t' ≠ t := by
      rintro rfl
      exact ht' b (Function.update_self ..)
    exact hs.unasked t' (by simpa [Function.update_of_ne ht] using ht')
  · intro t' b' ht'
    by_cases ht : t' = t
    · subst ht
      obtain rfl : b = b' := by simpa using ht'
      have hnone := hs.nowhere t' b (hidle b)
      obtain ⟨hanswers,hscans⟩ := hs.unasked t' hidle
      simp only [holds,answers,scans] at hnone hanswers hscans ⊢
      omega
    · exact hs.once t' b' (by simpa [Function.update_of_ne ht] using ht')

/-- An answer goes to the call that is owed it. -/
lemma Counted.send (hs : s.Counted) {b : ℕ} {permit : Bool} {p : T × Except ε ℕ} {ps : List (T × Except ε ℕ)}
    (hleader : s.leader b = .sending permit (p :: ps)) : ({ s with
    answered := s.answered ++ [p]
    leader := Function.update s.leader b (.sending permit ps) } : ReplayBatches κ T ε).Counted := by
  have hheld : ∀ t', s.holds b t' = (s.targets b).count t' + ((ps.map (·.1)).count t' + [p.1].count t') := by
    intro t'
    rw [holds,hleader]
    simp only [BatchLeader.inHand,BatchLeader.owed,List.map_cons,List.count_cons,List.count_nil,Nat.zero_add,
      Nat.add_zero]
  have hanswers : ∀ t', ((s.answered ++ [p]).map (·.1)).count t' = s.answers t' + [p.1].count t' := by
    intro t'
    rw [answers,List.map_append,List.count_append]
    rfl
  -- nobody but the batch's own call is answered
  have hother : ∀ t', s.call t' ≠ .queued b → [p.1].count t' = 0 := by
    intro t' ht'
    have hnone := hs.nowhere t' b ht'
    rw [hheld] at hnone
    omega
  constructor
  · intro t' b' ht'
    have hone := hs.here t' b' ht'
    by_cases hb : b' = b
    · subst hb
      rw [hheld] at hone
      simp only [holds,answers,Function.update_self,BatchLeader.inHand,BatchLeader.owed,List.count_nil] at hone ⊢
      rw [hanswers,answers]
      omega
    · have hzero := hother t' (by rw [ht']; exact fun h => hb (ReplayCall.queued.inj h))
      simp only [holds,answers,Function.update_of_ne hb] at hone ⊢
      rw [hanswers,answers]
      omega
  · intro t' b' ht'
    have hnone := hs.nowhere t' b' ht'
    by_cases hb : b' = b
    · subst hb
      rw [hheld] at hnone
      simp only [holds,Function.update_self,BatchLeader.inHand,BatchLeader.owed,List.count_nil]
      omega
    · rw [← hnone]
      simp only [holds,Function.update_of_ne hb]
  · intro t' ht'
    obtain ⟨hnone,hscans⟩ := hs.unasked t' ht'
    refine ⟨?_,hscans⟩
    rw [answers,hanswers,hother t' (ht' b),hnone]
  · intro t' b' ht'
    have honce := hs.once t' b' ht'
    by_cases hb : b' = b
    · subst hb
      rw [hleader] at honce
      simp only [BatchLeader.owed,List.map_cons,List.count_cons,scans,answers] at honce
      simp only [scans,answers,Function.update_self,BatchLeader.owed]
      rw [hanswers,answers]
      simp only [List.count_cons,List.count_nil]
      omega
    · have hzero := hother t' (by rw [ht']; exact fun h => hb (ReplayCall.queued.inj h))
      simp only [scans,answers,Function.update_of_ne hb] at honce ⊢
      rw [hanswers,answers]
      omega

end Frames

/-- A leader that goes on with its permit leaves one with a permit. -/
lemma hasPermit_update {leader : ℕ → BatchLeader κ T ε} {b : ℕ} {l : BatchLeader κ T ε}
    (hl : (leader b).hasPermit = true → l.hasPermit = true) (h : ∃ b, (leader b).hasPermit = true) :
    ∃ b', (Function.update leader b l b').hasPermit = true := by
  obtain ⟨b',hb'⟩ := h
  refine ⟨b',?_⟩
  by_cases heq : b' = b
  · subst heq
    rw [Function.update_self]
    exact hl hb'
  · rwa [Function.update_of_ne heq]

/-- Where a leader owes what it owed, so do all. -/
lemma owed_update {leader : ℕ → BatchLeader κ T ε} {b : ℕ} {l : BatchLeader κ T ε} (hl : l.owed = (leader b).owed)
    (b' : ℕ) : (Function.update leader b l b').owed = (leader b').owed := by
  by_cases hb : b' = b
  · subst hb
    rw [Function.update_self,hl]
  · rw [Function.update_of_ne hb]

section Invariant
variable [DecidableEq κ] [DecidableEq T] {key : T → κ} {s s' : ReplayBatches κ T ε} {a : Act T ε}

lemma Wired.step (hs : s.Wired) (h : Step key s a s') : s'.Wired := by
  obtain ⟨hfiled,hborn,hunborn,hopenly,hpermit⟩ := hs
  cases h with
  | lookup hcall hbatch => exact ⟨hfiled,by grind,hunborn,hopenly,hpermit⟩
  | create hcall hbatch =>
    refine ⟨by grind,by grind,by grind,hopenly,fun hnone => hasPermit_update ?_ (hpermit hnone)⟩
    intro hfresh
    rw [hunborn _ (Nat.le_refl _)] at hfresh
    cases hfresh
  | push hcall => exact ⟨hfiled,by grind,hunborn,hopenly,hpermit⟩
  | remove hleader =>
    refine ⟨by grind,by grind,by grind,hopenly,fun hnone => hasPermit_update ?_ (hpermit hnone)⟩
    rw [hleader]
    exact id
  | take hleader =>
    refine ⟨by grind,by grind,by grind,hopenly,fun hnone => hasPermit_update ?_ (hpermit hnone)⟩
    rw [hleader]
    exact id
  | @permit b _ hleader hopen hfree =>
    refine ⟨by grind,by grind,by grind,hopenly,fun _ => ⟨b,?_⟩⟩
    simp [BatchLeader.hasPermit]
  | refuse hleader hclosed =>
    rw [hopenly] at hclosed
    cases hclosed
  | scan hleader herrors hemitted =>
    refine ⟨by grind,by grind,by grind,hopenly,fun hnone => hasPermit_update (fun _ => rfl) (hpermit hnone)⟩
  | send hleader =>
    refine ⟨by grind,by grind,by grind,hopenly,fun hnone => hasPermit_update ?_ (hpermit hnone)⟩
    rw [hleader]
    exact id
  | @finish b permit hleader =>
    refine ⟨by grind,by grind,by grind,hopenly,?_⟩
    intro hnone
    cases permit with
    | true => cases hnone
    | false =>
      refine hasPermit_update ?_ (hpermit hnone)
      rw [hleader]
      exact id

lemma Counted.step (hs : s.Counted) (hwired : s.Wired) (h : Step key s a s') : s'.Counted := by
  cases h with
  | @lookup t b hcall hbatch =>
    refine hs.moved (fun t' b' => ?_) (fun _ _ => rfl) (fun _ => rfl) (fun _ _ _ => rfl) (fun _ _ => rfl)
    by_cases ht : t' = t
    · subst ht
      simp [hcall]
    · simp [Function.update_of_ne ht]
  | @create t hcall hbatch =>
    have hnone := hs.nowhere
    refine hs.moved (fun t' b' => ?_) (holds_update s.fresh _ _ (fun _ => rfl) (fun _ => rfl) fun t' => ?_)
      (fun _ => rfl) (fun t' b' ht' => ?_) (fun _ _ => rfl)
    · by_cases ht : t' = t
      · subst ht
        simp [hcall]
      · simp [Function.update_of_ne ht]
    · have hfresh : s.call t' ≠ .queued s.fresh := fun hq =>
        hwired.born t' s.fresh (.inr hq) (hwired.unborn _ (Nat.le_refl _))
      rw [hs.nowhere t' s.fresh hfresh]
      rfl
    · have hne : b' ≠ s.fresh := by
        rintro rfl
        exact hwired.born t' _ (.inr ht') (hwired.unborn _ (Nat.le_refl _))
      simp [scans,Function.update_of_ne hne]
  | push hcall => exact hs.push hcall
  | @remove b k hleader =>
    refine hs.moved (fun _ _ => Iff.rfl) (holds_update b (s.targets b) .removed (by simp) (fun _ => rfl) fun t' => ?_)
      (fun _ => rfl) (fun t' b' _ => ?_) (fun _ _ => rfl)
    · rw [holds,hleader]
      rfl
    · rw [owed_update (by rw [hleader]; rfl)]
      rfl
  | @take b hleader =>
    refine hs.moved (fun _ _ => Iff.rfl) (holds_update b [] _ (fun _ => rfl) (fun _ => rfl) fun t' => ?_)
      (fun _ => rfl) (fun t' b' _ => ?_) (fun _ _ => rfl)
    · simp [holds,hleader,BatchLeader.inHand,BatchLeader.owed]
    · rw [owed_update (by rw [hleader]; rfl)]
      rfl
  | @permit b ts hleader hopen hfree =>
    refine hs.moved (fun _ _ => Iff.rfl) (holds_update b (s.targets b) _ (by simp) (fun _ => rfl) fun t' => ?_)
      (fun _ => rfl) (fun t' b' _ => ?_) (fun _ _ => rfl)
    · rw [holds,hleader]
      rfl
    · rw [owed_update (by rw [hleader]; rfl)]
      rfl
  | refuse hleader hclosed =>
    rw [hwired.openly] at hclosed
    cases hclosed
  | @scan b ts errors emitted hleader herrors hemitted =>
    have hresults : (ts.zip (replayResults errors emitted)).map (·.1) = ts :=
      List.map_fst_zip (by simp [replayResults,herrors,hemitted])
    refine hs.moved (fun _ _ => Iff.rfl) (holds_update b (s.targets b) _ (by simp) (fun _ => rfl) fun t' => ?_)
      (fun _ => rfl) (fun t' b' ht' => ?_) (fun t' ht' => ?_)
    · simp [holds,hleader,BatchLeader.inHand,BatchLeader.owed,hresults]
    · by_cases hb : b' = b
      · subst hb
        simp [scans,hleader,BatchLeader.owed,hresults]
      · have hnone := hs.nowhere t' b (by rw [ht']; exact fun h => hb (ReplayCall.queued.inj h))
        rw [holds,hleader] at hnone
        simp only [BatchLeader.inHand,BatchLeader.owed] at hnone
        simp only [scans,Function.update_of_ne hb,List.map_append,List.count_append,hresults]
        omega
    · have hnone := hs.nowhere t' b (ht' b)
      rw [holds,hleader] at hnone
      simp only [BatchLeader.inHand,BatchLeader.owed] at hnone
      simp only [scans,List.map_append,List.count_append,hresults]
      omega
  | send hleader => exact hs.send hleader
  | @finish b permit hleader =>
    refine hs.moved (fun _ _ => Iff.rfl) (holds_update b (s.targets b) _ (by simp) (fun _ => rfl) fun t' => ?_)
      (fun _ => rfl) (fun t' b' _ => ?_) (fun _ _ => rfl)
    · rw [holds,hleader]
      rfl
    · rw [owed_update (by rw [hleader]; rfl)]
      rfl

omit [DecidableEq κ] in
lemma start_counted (n : ℕ) : (start n : ReplayBatches κ T ε).Counted := by
  constructor
  · intro t b ht
    cases ht
  · intro t b _
    rfl
  · intro t _
    exact ⟨rfl,rfl⟩
  · intro t b ht
    cases ht

lemma Truthful.step (hs : s.Truthful) (hwired : s.Wired) (h : Step key s a s') : s'.Truthful := by
  -- what one leader owes from now on is all there is to look at
  have hleader : ∀ (b : ℕ) (l : BatchLeader κ T ε) p b', (∀ p ∈ l.owed, p ∈ s.scanned) →
      p ∈ (Function.update s.leader b l b').owed ∨ p ∈ s.answered → p ∈ s.scanned := by
    intro b l p b' hl hp
    by_cases hb : b' = b
    · subst hb
      rw [Function.update_self] at hp
      rcases hp with hp | hp
      · exact hl p hp
      · exact hs p b' (.inr hp)
    · rw [Function.update_of_ne hb] at hp
      exact hs p b' hp
  intro p b' hp
  cases h with
  | lookup hcall hbatch => exact hs p b' hp
  | create hcall hbatch => exact hleader s.fresh _ p b' (by simp [BatchLeader.owed]) hp
  | push hcall => exact hs p b' hp
  | @remove b k hsleeping => exact hleader b _ p b' (by simp [BatchLeader.owed]) hp
  | @take b hremoved => exact hleader b _ p b' (by simp [BatchLeader.owed]) hp
  | @permit b ts hwaiting hopen hfree => exact hleader b _ p b' (by simp [BatchLeader.owed]) hp
  | refuse hwaiting hclosed =>
    rw [hwired.openly] at hclosed
    cases hclosed
  | @scan b ts errors emitted hscanning herrors hemitted =>
    by_cases hb : b' = b
    · subst hb
      simp only [Function.update_self,BatchLeader.owed] at hp
      rcases hp with hp | hp
      · exact List.mem_append_right _ hp
      · exact List.mem_append_left _ (hs p b' (.inr hp))
    · simp only [Function.update_of_ne hb] at hp
      exact List.mem_append_left _ (hs p b' hp)
  | @send b permit q ps hsending =>
    have howed : ∀ q' ∈ q :: ps, q' ∈ s.scanned := by
      intro q' hq'
      refine hs q' b (.inl ?_)
      rw [hsending]
      exact hq'
    rcases hp with hp | hp
    · exact hleader b (.sending permit ps) p b' (fun q' hq' => howed q' (.tail _ hq')) (.inl hp)
    · rcases List.mem_append.mp hp with hp | hp
      · exact hs p b' (.inr hp)
      · rw [List.mem_singleton.mp hp]
        exact howed q (.head _)
  | @finish b permit hsending => exact hleader b _ p b' (by simp [BatchLeader.owed]) hp

/-- No call is on its way into a batch whose targets are taken, and none got there. -/
def NoneLate (s : ReplayBatches κ T ε) : Prop :=
  ∀ b, (s.leader b).took = true → s.targets b = [] ∧ ∀ t, s.call t ≠ .joined b

/-- A leader takes the targets when every call that has its batch has put its target there. -/
def Act.heeds (s : ReplayBatches κ T ε) : Act T ε → Prop
  | take b => ∀ t, s.call t ≠ .joined b
  | _ => True

lemma NoneLate.step (hs : s.NoneLate) (hwired : s.Wired) (h : Step key s a s') (hheeds : a.heeds s) : s'.NoneLate := by
  have hleader : ∀ (b b' : ℕ) (l : BatchLeader κ T ε), (l.took = true → (s.leader b).took = true) →
      (Function.update s.leader b l b').took = true → (s.leader b').took = true := by
    intro b b' l hl hb'
    by_cases hb : b' = b
    · subst hb
      rw [Function.update_self] at hb'
      exact hl hb'
    · rwa [Function.update_of_ne hb] at hb'
  intro b' hb'
  cases h with
  | @lookup t b hcall hbatch =>
    have hne : b' ≠ b := by
      rintro rfl
      rw [show s.leader b' = _ from hwired.filed _ _ hbatch] at hb'
      cases hb'
    obtain ⟨hnil,hjoined⟩ := hs b' hb'
    refine ⟨hnil,fun t' ht' => ?_⟩
    by_cases ht : t' = t
    · subst ht
      simp only [Function.update_self,ReplayCall.joined.injEq] at ht'
      exact hne ht'.symm
    · simp only [Function.update_of_ne ht] at ht'
      exact hjoined t' ht'
  | @create t hcall hbatch => 
    have hne : b' ≠ s.fresh := by
      rintro rfl
      simp [BatchLeader.took] at hb'
    simp only [Function.update_of_ne hne] at hb' ⊢
    obtain ⟨hnil,hjoined⟩ := hs b' hb'
    refine ⟨hnil,fun t' ht' => ?_⟩
    by_cases ht : t' = t
    · subst ht
      simp only [Function.update_self,ReplayCall.joined.injEq] at ht'
      exact hne ht'.symm
    · simp only [Function.update_of_ne ht] at ht'
      exact hjoined t' ht'
  | @push t b hcall =>
    obtain ⟨hnil,hjoined⟩ := hs b' hb'
    have hne : b' ≠ b := by
      rintro rfl
      exact hjoined t hcall
    simp only [Function.update_of_ne hne]
    refine ⟨hnil,fun t' ht' => ?_⟩
    by_cases ht : t' = t
    · subst ht
      simp at ht'
    · simp only [Function.update_of_ne ht] at ht'
      exact hjoined t' ht'
  | @remove b k hsleeping => exact hs b' (hleader b b' _ (by simp [BatchLeader.took]) hb')
  | @take b hremoved =>
    by_cases hb : b' = b
    · subst hb
      exact ⟨Function.update_self ..,hheeds⟩
    · simp only [Function.update_of_ne hb] at hb' ⊢
      exact hs b' hb'
  | @permit b ts hwaiting hopen hfree => exact hs b' (hleader b b' _ (by simp [hwaiting,BatchLeader.took]) hb')
  | @refuse b ts e hwaiting hclosed => exact hs b' (hleader b b' _ (by simp [hwaiting,BatchLeader.took]) hb')
  | @scan b ts errors emitted hscanning herrors hemitted =>
    exact hs b' (hleader b b' _ (by simp [hscanning,BatchLeader.took]) hb')
  | @send b permit q ps hsending => exact hs b' (hleader b b' _ (by simp [hsending,BatchLeader.took]) hb')
  | @finish b permit hsending => exact hs b' (hleader b b' _ (by simp [hsending,BatchLeader.took]) hb')

/-- Calls and leaders as they come. -/
def Run (key : T → κ) : ReplayBatches κ T ε → ReplayBatches κ T ε → Prop :=
  Relation.ReflTransGen fun s s' => ∃ a, Step key s a s'

/-- A run in which each leader heeds the calls that have its batch. -/
def HeedingRun (key : T → κ) : ReplayBatches κ T ε → ReplayBatches κ T ε → Prop :=
  Relation.ReflTransGen fun s s' => ∃ a, Step key s a s' ∧ a.heeds s

/-- In every run whatever is in a batch is accounted for. -/
lemma run_kept {n : ℕ} (h : Run key (start n) s) : s.Counted ∧ s.Wired ∧ s.Truthful := by
  induction h with
  | refl =>
    refine ⟨start_counted n,⟨?_,?_,fun _ _ => rfl,rfl,?_⟩,?_⟩
    · rintro k b hb
      cases hb
    · rintro t b (ht | ht)
      · cases ht
      · cases ht
    · intro hnone
      change max n 1 = 0 at hnone
      omega
    · rintro p b (hp | hp)
      · cases hp
      · cases hp
  | tail _ hstep ih =>
    obtain ⟨a,hstep⟩ := hstep
    obtain ⟨hcounted,hwired,htruthful⟩ := ih
    exact ⟨hcounted.step hwired hstep,hwired.step hstep,htruthful.step hwired hstep⟩

lemma HeedingRun.run (h : HeedingRun key s s') : Run key s s' := by
  induction h with
  | refl => exact .refl
  | tail _ hstep ih =>
    obtain ⟨a,hstep,-⟩ := hstep
    exact ih.tail ⟨a,hstep⟩

lemma heedingRun_noneLate {n : ℕ} (h : HeedingRun key (start n) s) : s.NoneLate := by
  induction h with
  | refl =>
    intro b hb
    cases hb
  | tail hrun hstep ih =>
    obtain ⟨a,hstep,hheeds⟩ := hstep
    exact ih.step (run_kept (HeedingRun.run hrun)).2.1 hstep hheeds

/-- Is it a call that starts? -/
def Act.starts : Act T ε → Bool
  | lookup _ | create _ => true
  | _ => false

/-- A call or a leader goes on with what it has begun. -/
def Goes (key : T → κ) (s s' : ReplayBatches κ T ε) : Prop := ∃ a, a.starts = false ∧ a.heeds s ∧ Step key s a s'

/-- What coalescing promises: no target joins a batch that is taken; a target is scanned once and answered once at
most, with what its replay came to; when its leader is done it has been; while a call waits, it or a leader can go
on, and that comes to an end. -/
structure Coalesced (key : T → κ) (s : ReplayBatches κ T ε) : Prop where
  noneLate : s.NoneLate
  atMost : ∀ t, s.scans t ≤ 1 ∧ s.answers t ≤ 1
  result : ∀ p ∈ s.answered, p ∈ s.scanned
  delivered : ∀ t b, s.call t = .queued b → s.leader b = .done → s.scans t = 1 ∧ s.answers t = 1
  goesOn : ∀ t b, s.call t = .joined b ∨ (s.call t = .queued b ∧ s.answers t = 0) → ∃ s', Goes key s s'
  ends : Acc (fun s' s => Goes key s s') s

omit [DecidableEq κ] in
lemma Counted.atMost (hs : s.Counted) (t : T) : s.scans t ≤ 1 ∧ s.answers t ≤ 1 := by
  by_cases hqueued : ∃ b, s.call t = .queued b
  · obtain ⟨b,hb⟩ := hqueued
    have hhere := hs.here t b hb
    have honce := hs.once t b hb
    rw [holds] at hhere
    omega
  · obtain ⟨hanswers,hscans⟩ := hs.unasked t fun b hb => hqueued ⟨b,hb⟩
    omega

/-- A leader with a permit goes on. -/
lemma hasPermit_goes {b : ℕ} (h : (s.leader b).hasPermit = true) :
    ∃ s', Goes key s s' := by
  cases hleader : s.leader b with
  | scanning ts =>
    exact ⟨_,.scan b (ts.map fun _ => none) (ts.map fun _ => 0),rfl,trivial,.scan hleader (by simp) (by simp)⟩
  | sending permit ps =>
    cases ps with
    | nil => exact ⟨_,.finish b,rfl,trivial,.finish hleader⟩
    | cons p ps => exact ⟨_,.send b,rfl,trivial,.send hleader⟩
  | _ =>
    rw [hleader] at h
    cases h

lemma goes_on (hcounted : s.Counted) (hwired : s.Wired) (hlate : s.NoneLate) {t : T} {b : ℕ}
    (ht : s.call t = .joined b ∨ (s.call t = .queued b ∧ s.answers t = 0)) :
    ∃ s', Goes key s s' := by
  rcases ht with ht | ⟨ht,hnone⟩
  · exact ⟨_,.push t,rfl,trivial,.push ht⟩
  cases hleader : s.leader b with
  | absent => exact absurd hleader (hwired.born t b (.inr ht))
  | sleeping k => exact ⟨_,.remove b,rfl,trivial,.remove hleader⟩
  | removed =>
    by_cases hjoined : ∃ t', s.call t' = .joined b
    · obtain ⟨t',ht'⟩ := hjoined
      exact ⟨_,.push t',rfl,trivial,.push ht'⟩
    · exact ⟨_,.take b,rfl,fun t' ht' => hjoined ⟨t',ht'⟩,.take hleader⟩
  | waiting ts =>
    by_cases hfree : s.permits = 0
    · obtain ⟨b',hb'⟩ := hwired.permit hfree
      exact hasPermit_goes hb'
    · exact ⟨_,.permit b,rfl,trivial,.permit hleader hwired.openly (Nat.pos_of_ne_zero hfree)⟩
  | scanning ts =>
    refine hasPermit_goes (b := b) ?_
    rw [hleader]
    rfl
  | sending permit ps =>
    cases ps with
    | nil => exact ⟨_,.finish b,rfl,trivial,.finish hleader⟩
    | cons p ps => exact ⟨_,.send b,rfl,trivial,.send hleader⟩
  | done =>
    -- its targets were taken, so it has been answered
    have hhere := hcounted.here t b ht
    have hnil := (hlate b (by rw [hleader]; rfl)).1
    rw [holds,hnil,hleader,hnone] at hhere
    cases hhere

/-- What is left to do of what the calls in `calls` have begun. -/
def work (calls : Finset T) (s : ReplayBatches κ T ε) : ℕ :=
  ∑ t ∈ calls, (s.call t).work + ∑ b ∈ Finset.range s.fresh, ((s.leader b).work + (s.targets b).length)

omit [DecidableEq κ] [DecidableEq T] in
lemma sum_change {ι : Type} [DecidableEq ι] {f g : ι → ℕ} {is : Finset ι} {i : ι} (hi : i ∈ is)
    (hsame : ∀ j, j ≠ i → f j = g j) : ∑ j ∈ is, f j + g i = ∑ j ∈ is, g j + f i := by
  have hrest : ∑ j ∈ is.erase i, f j = ∑ j ∈ is.erase i, g j :=
    Finset.sum_congr rfl fun j hj => hsame j (Finset.ne_of_mem_erase hj)
  have hf := Finset.add_sum_erase is f hi
  have hg := Finset.add_sum_erase is g hi
  omega

/-- Going on leaves less to do. -/
lemma work_lt {calls : Finset T} (hwired : s.Wired) (hcalls : ∀ t, t ∉ calls → s.call t = .idle) (h : Step key s a s')
    (hstarts : a.starts = false) : work calls s' < work calls s ∧ ∀ t, t ∉ calls → s'.call t = .idle := by
  have hlow : ∀ b, s.leader b ≠ .absent → b ∈ Finset.range s.fresh := by
    intro b hb
    rw [Finset.mem_range]
    by_contra hge
    exact hb (hwired.unborn b (Nat.le_of_not_lt hge))
  -- a leader that goes on, and its targets
  have hleader : ∀ (b : ℕ) (s' : ReplayBatches κ T ε), s.leader b ≠ .absent → s'.call = s.call → s'.fresh = s.fresh →
      (∀ b', b' ≠ b → s'.leader b' = s.leader b' ∧ s'.targets b' = s.targets b') →
      (s'.leader b).work + (s'.targets b).length < (s.leader b).work + (s.targets b).length →
      work calls s' < work calls s ∧ ∀ t, t ∉ calls → s'.call t = .idle := by
    intro b s' hb hcall hfresh hsame hless
    have hsum := sum_change (f := fun b => (s'.leader b).work + (s'.targets b).length)
      (g := fun b => (s.leader b).work + (s.targets b).length) (hlow b hb)
      (fun b' hb' => by rw [(hsame b' hb').1,(hsame b' hb').2])
    refine ⟨?_,hcall ▸ hcalls⟩
    rw [work,work,hcall,hfresh]
    omega
  cases h with
  | lookup hcall hbatch => cases hstarts
  | create hcall hbatch => cases hstarts
  | @push t b hcall =>
    have hmem : t ∈ calls := by
      by_contra hnot
      rw [hcalls t hnot] at hcall
      cases hcall
    have hcallSum := sum_change (f := fun t' => (Function.update s.call t (.queued b) t').work)
      (g := fun t' => (s.call t').work) hmem (fun t' ht' => by rw [Function.update_of_ne ht'])
    have hbatchSum := sum_change
      (f := fun b' => (s.leader b').work + (Function.update s.targets b (s.targets b ++ [t]) b').length)
      (g := fun b' => (s.leader b').work + (s.targets b').length) (hlow b (hwired.born t b (.inl hcall)))
      (fun b' hb' => by rw [Function.update_of_ne hb'])
    have hjoined : (s.call t).work = 2 := by rw [hcall]; rfl
    have hqueued : (ReplayCall.queued b).work = 0 := rfl
    simp only [Function.update_self,List.length_append,List.length_singleton] at hcallSum hbatchSum
    refine ⟨?_,fun t' ht' => ?_⟩
    · simp only [work]
      omega
    · have hne : t' ≠ t := by
        rintro rfl
        exact ht' hmem
      simp only [Function.update_of_ne hne]
      exact hcalls t' ht'
  | @remove b k hsleeping =>
    refine hleader b _ (by simp [hsleeping]) rfl rfl (fun b' hb' => ⟨Function.update_of_ne hb' _ _,rfl⟩) ?_
    simp [hsleeping,BatchLeader.work]
  | @take b hremoved =>
    refine hleader b _ (by simp [hremoved]) rfl rfl
      (fun b' hb' => ⟨Function.update_of_ne hb' _ _,Function.update_of_ne hb' _ _⟩) ?_
    simp only [Function.update_self,hremoved,BatchLeader.work,List.length_nil]
    omega
  | @permit b ts hwaiting hopen hfree =>
    refine hleader b _ (by simp [hwaiting]) rfl rfl (fun b' hb' => ⟨Function.update_of_ne hb' _ _,rfl⟩) ?_
    simp [hwaiting,BatchLeader.work]
  | @refuse b ts e hwaiting hclosed =>
    refine hleader b _ (by simp [hwaiting]) rfl rfl (fun b' hb' => ⟨Function.update_of_ne hb' _ _,rfl⟩) ?_
    simp [hwaiting,BatchLeader.work]
  | @scan b ts errors emitted hscanning herrors hemitted =>
    refine hleader b _ (by simp [hscanning]) rfl rfl (fun b' hb' => ⟨Function.update_of_ne hb' _ _,rfl⟩) ?_
    simp [hscanning,BatchLeader.work,replayResults,herrors,hemitted]
  | @send b permit q ps hsending =>
    refine hleader b _ (by simp [hsending]) rfl rfl (fun b' hb' => ⟨Function.update_of_ne hb' _ _,rfl⟩) ?_
    simp [hsending,BatchLeader.work]
  | @finish b permit hsending =>
    refine hleader b _ (by simp [hsending]) rfl rfl (fun b' hb' => ⟨Function.update_of_ne hb' _ _,rfl⟩) ?_
    simp [hsending,BatchLeader.work]

/-- So it comes to an end. -/
lemma goes_ends {calls : Finset T} (hwired : s.Wired) (hcalls : ∀ t, t ∉ calls → s.call t = .idle) :
    Acc (fun s' s => Goes key s s') s := by
  induction hn : work calls s using Nat.strong_induction_on generalizing s with
  | _ n ih =>
    subst hn
    refine ⟨_,?_⟩
    rintro s' ⟨a,hstarts,-,hstep⟩
    obtain ⟨hless,hcalls'⟩ := work_lt hwired hcalls hstep hstarts
    exact ih _ hless (hwired.step hstep) hcalls' rfl

/-- Only so many calls there are. -/
lemma run_calls {n : ℕ} (h : Run key (start n) s) : ∃ calls : Finset T, ∀ t, t ∉ calls → s.call t = .idle := by
  induction h with
  | refl => exact ⟨∅,fun _ _ => rfl⟩
  | @tail s s' _ hstep ih =>
    obtain ⟨a,hstep⟩ := hstep
    obtain ⟨calls,hcalls⟩ := ih
    have hone : ∀ t c, (∀ t', t' ∉ insert t calls → Function.update s.call t c t' = .idle) := by
      intro t c t' ht'
      rw [Finset.mem_insert,not_or] at ht'
      rw [Function.update_of_ne ht'.1]
      exact hcalls t' ht'.2
    cases hstep with
    | lookup hcall hbatch => exact ⟨_,hone _ _⟩
    | create hcall hbatch => exact ⟨_,hone _ _⟩
    | push hcall => exact ⟨_,hone _ _⟩
    | _ => exact ⟨calls,hcalls⟩

/-- A call that comes too late is in no hand any more. -/
def Stranded (s : ReplayBatches κ T ε) (t : T) (b : ℕ) : Prop :=
  (s.leader b).took = true ∧ (s.call t = .joined b ∨ (s.call t = .queued b ∧ t ∈ s.targets b))

lemma Stranded.step {t : T} {b : ℕ} (hs : s.Stranded t b) (hwired : s.Wired) (h : Step key s a s') :
    s'.Stranded t b := by
  obtain ⟨htook,ht⟩ := hs
  have hleader : ∀ (b' : ℕ) (l : BatchLeader κ T ε), ((s.leader b').took = true → l.took = true) →
      (Function.update s.leader b' l b).took = true := by
    intro b' l hl
    by_cases hb : b = b'
    · subst hb
      rw [Function.update_self]
      exact hl htook
    · rwa [Function.update_of_ne hb]
  cases h with
  | @lookup t' b' hcall hbatch =>
    have hne : t ≠ t' := by
      rintro rfl
      simp [hcall] at ht
    exact ⟨htook,by simpa only [Function.update_of_ne hne] using ht⟩
  | @create t' hcall hbatch =>
    have hne : t ≠ t' := by
      rintro rfl
      simp [hcall] at ht
    have hb : b ≠ s.fresh := by
      rintro rfl
      rw [hwired.unborn _ (Nat.le_refl _)] at htook
      cases htook
    refine ⟨?_,?_⟩
    · simpa only [Function.update_of_ne hb] using htook
    · simpa only [Function.update_of_ne hne,Function.update_of_ne hb] using ht
  | @push t' b' hcall =>
    refine ⟨htook,?_⟩
    by_cases hne : t = t'
    · subst hne
      obtain rfl : b' = b := by simpa [hcall] using ht
      exact .inr (by simp)
    · by_cases hb : b = b'
      · subst hb
        simp only [Function.update_of_ne hne,Function.update_self]
        exact ht.imp id fun h => ⟨h.1,List.mem_append_left _ h.2⟩
      · simpa only [Function.update_of_ne hne,Function.update_of_ne hb] using ht
  | @remove b' k hsleeping => exact ⟨hleader b' _ (by simp [hsleeping,BatchLeader.took]),ht⟩
  | @take b' hremoved =>
    have hb : b ≠ b' := by
      rintro rfl
      rw [hremoved] at htook
      cases htook
    exact ⟨hleader b' _ (fun _ => rfl),by simpa only [Function.update_of_ne hb] using ht⟩
  | @permit b' ts hwaiting hopen hfree => exact ⟨hleader b' _ (fun _ => rfl),ht⟩
  | @refuse b' ts e hwaiting hclosed => exact ⟨hleader b' _ (fun _ => rfl),ht⟩
  | @scan b' ts errors emitted hscanning herrors hemitted => exact ⟨hleader b' _ (fun _ => rfl),ht⟩
  | @send b' permit q ps hsending => exact ⟨hleader b' _ (fun _ => rfl),ht⟩
  | @finish b' permit hsending => exact ⟨hleader b' _ (fun _ => rfl),ht⟩

lemma Stranded.run {n : ℕ} {t : T} {b : ℕ} (hs : s.Stranded t b) (hrun : Run key (start n) s) (hafter : Run key s s') :
    Run key (start n) s' ∧ s'.Stranded t b := by
  induction hafter with
  | refl => exact ⟨hrun,hs⟩
  | tail _ hstep ih =>
    obtain ⟨a,hstep⟩ := hstep
    exact ⟨ih.1.tail ⟨a,hstep⟩,ih.2.step (run_kept ih.1).2.1 hstep⟩

omit [DecidableEq κ] in
lemma Stranded.lost {t : T} {b : ℕ} (hs : s.Stranded t b) (hcounted : s.Counted) : s.scans t = 0 ∧ s.answers t = 0 := by
  rcases hs.2 with ht | ⟨ht,hmem⟩
  · exact (hcounted.unasked t fun b' hb' => by rw [ht] at hb'; cases hb').symm
  · have hhere := hcounted.here t b ht
    have honce := hcounted.once t b ht
    have hpos := List.count_pos_iff.mpr hmem
    rw [holds] at hhere
    omega

/-- Where leaders heed the calls that have their batch no request is lost; a call that a leader did not wait for is
lost for good. -/
theorem replay_coalesced_delivers (key : T → κ) (n : ℕ) :
    (∀ s : ReplayBatches κ T ε, HeedingRun key (start n) s → s.Coalesced key) ∧
    ∀ (s s' s'' : ReplayBatches κ T ε) (b : ℕ) (t : T), Run key (start n) s → s.call t = .joined b →
      Step key s (.take b) s' → Run key s' s'' → s''.scans t = 0 ∧ s''.answers t = 0 := by
  constructor
  · intro s hrun
    obtain ⟨hcounted,hwired,htruthful⟩ := run_kept hrun.run
    have hlate := heedingRun_noneLate hrun
    obtain ⟨calls,hcalls⟩ := run_calls hrun.run
    refine ⟨hlate,hcounted.atMost,fun p hp => htruthful p 0 (.inr hp),?_,fun t b => goes_on hcounted hwired hlate,
      goes_ends hwired hcalls⟩
    intro t b ht hdone
    have hhere := hcounted.here t b ht
    have honce := hcounted.once t b ht
    have hnil := (hlate b (by rw [hdone]; rfl)).1
    rw [holds,hnil,hdone] at hhere
    rw [hdone] at honce
    simp only [BatchLeader.inHand,BatchLeader.owed,List.map_nil,List.count_nil] at hhere honce
    omega
  · intro s s' s'' b t hrun ht htake hafter
    have hstranded : s'.Stranded t b := by
      cases htake with
      | take hremoved => exact ⟨by simp [BatchLeader.took],.inl ht⟩
    obtain ⟨hrun',hstill⟩ := hstranded.run (hrun.tail ⟨_,htake⟩) hafter
    exact hstill.lost (run_kept hrun').1

end Invariant

/-- One call, its batch and its replay. -/
theorem sample_delivers : ∃ s : ReplayBatches String ℕ String,
    HeedingRun (fun _ => "items:0") (start 2) s ∧ s.leader 0 = .done ∧ s.call 7 = .queued 0 ∧
      s.scans 7 = 1 ∧ s.answers 7 = 1 := by
  have hrun : ∃ s : ReplayBatches String ℕ String, HeedingRun (fun _ => "items:0") (start 2) s ∧
      s.leader 0 = .done ∧ s.call 7 = .queued 0 := by
    refine ⟨_,.tail (.tail (.tail (.tail (.tail (.tail (.tail (.tail .refl
      ⟨.create 7,.create rfl rfl,trivial⟩) ⟨.push 7,.push (b := 0) rfl,trivial⟩)
      ⟨.remove 0,.remove (k := "items:0") rfl,trivial⟩) ⟨.take 0,.take rfl,?_⟩)
      ⟨.permit 0,.permit rfl rfl (by decide),trivial⟩)
      ⟨.scan 0 [none] [3],.scan rfl rfl rfl,trivial⟩)
      ⟨.send 0,.send rfl,trivial⟩) ⟨.finish 0,.finish rfl,trivial⟩,rfl,rfl⟩
    intro t ht
    by_cases h7 : t = 7
    · simp [h7] at ht
    · simp [start,h7] at ht
  obtain ⟨s,hrun,hdone,hcall⟩ := hrun
  obtain ⟨hscans,hanswers⟩ := ((replay_coalesced_delivers _ 2).1 s hrun).delivered 7 0 hcall hdone
  exact ⟨s,hrun,hdone,hcall,hscans,hanswers⟩

/-- The call that opens the batch is slow: its leader wakes, takes nothing and is done before the target is there. No
replay scans it then, and its waiter is never answered. -/
theorem sample_stranded : ∃ s : ReplayBatches String ℕ String, Run (fun _ => "items:0") (start 2) s ∧
    s.leader 0 = .done ∧ s.targets 0 = [7] ∧
      ∀ s', Run (fun _ => "items:0") s s' → s'.scans 7 = 0 ∧ s'.answers 7 = 0 := by
  have hrun : ∃ s : ReplayBatches String ℕ String, Run (fun _ => "items:0") (start 2) s ∧
      s.leader 0 = .done ∧ s.targets 0 = [7] ∧ s.call 7 = .queued 0 :=
    ⟨_,.tail (.tail (.tail (.tail (.tail (.tail (.tail .refl ⟨.create 7,.create rfl rfl⟩)
      ⟨.remove 0,.remove (k := "items:0") rfl⟩) ⟨.take 0,.take rfl⟩) ⟨.permit 0,.permit rfl rfl (by decide)⟩)
      ⟨.scan 0 [] [],.scan rfl rfl rfl⟩) ⟨.finish 0,.finish rfl⟩) ⟨.push 7,.push (b := 0) rfl⟩,rfl,rfl,rfl⟩
  obtain ⟨s,hrun,hdone,htargets,hcall⟩ := hrun
  refine ⟨s,hrun,hdone,htargets,fun s' hafter => ?_⟩
  have hstranded : s.Stranded 7 0 := ⟨by rw [hdone]; rfl,.inr ⟨hcall,by rw [htargets]; exact .head _⟩⟩
  obtain ⟨hrun',hstill⟩ := hstranded.run hrun hafter
  exact hstill.lost (run_kept hrun').1

end ReplayBatches
end ElectricCircuits
