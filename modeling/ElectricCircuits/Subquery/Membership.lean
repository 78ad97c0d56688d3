import ElectricCircuits.Lib.Incremental
import ElectricCircuits.Value

/-! The membership circuit: which value each row contributes to each node is kept by upserts, and a node's set has
the values that some row contributes. What a batch of upserts changes of the sets comes out of the same step. -/
namespace ElectricCircuits
open GroupSum Incremental

/-- The node, and the id of a row's primary key. -/
structure PkKey where
  id : ℕ
  pk : ℕ
deriving DecidableEq

/-- What a key is told to hold now. -/
inductive Assert where
  | insert (v : Value)
  | delete

def Assert.value : Assert → Option Value
  | insert v => some v
  | delete => none

/-- A value that entered a node's set, or left it. -/
structure MemberDelta where
  nodeId : ℕ
  value : Value
  delta : ℤ

/-- The operators of the circuit library, at the types of the circuit. -/
structure Dbsp where
  contribIn : InputMap PkKey Value
  contributors : Integral (PkKey × Value)
  members : Integral (ℕ × Value)
  distinct : Distinct (ℕ × Value)

/-- The circuit. Its snapshots are those of the two sums, as the last step left them. -/
structure MembershipCircuit (D : Dbsp) where
  members : Projected D.contribIn D.members D.distinct
  contributors : D.contributors.State

namespace MembershipCircuit
variable {D : Dbsp}

def start : MembershipCircuit D := ⟨.empty _ _ _,D.contributors.empty⟩

/-- What a contribution counts for. -/
def memberOf (t : PkKey × Value) : ℕ × Value := (t.1.id,t.2)

def drainFlips (batch : List ((ℕ × Value) × ℤ)) : List MemberDelta :=
  (groups id batch).map fun t => ⟨t.1.1,t.1.2,t.2⟩

/-- Assert, step, and return what the step changed of the sets. -/
def apply (c : MembershipCircuit D) (asserts : List (PkKey × Assert)) : MembershipCircuit D × List MemberDelta :=
  if asserts.isEmpty then (c,[])
  else
    let step := c.members.push memberOf (asserts.map fun a => (a.1,a.2.value))
    (⟨step.1,D.contributors.add c.contributors step.2.1⟩,drainFlips step.2.2)

def contains (c : MembershipCircuit D) (nodeId : ℕ) (v : Value) : Bool :=
  decide (0 < weight (· == (nodeId,v)) (D.members.tuples c.members.counts))

/-- What counts under the id of a node, as a cursor meets it; of each key only the first value. -/
def mapSlice (nodeId : ℕ) (contribs : List ((PkKey × Value) × ℤ)) : List (ℕ × Value) :=
  contribs.foldl (fun out t =>
    if t.1.1.id = nodeId ∧ 0 < t.2 ∧ t.1.1.pk ∉ out.map (·.1) then out ++ [(t.1.1.pk,t.1.2)] else out) []

/-- What is contributed to a node: the slice of the contributors under its id. -/
def contributorEntries (c : MembershipCircuit D) (nodeId : ℕ) : List (ℕ × Value) :=
  mapSlice nodeId (groups id (D.contributors.tuples c.contributors))

/-- What a row contributes to a node. -/
def held (c : MembershipCircuit D) (k : PkKey) : Option Value := (D.contribIn.relation c.members.map).get? k

/-- What the keys hold after some assertions. -/
def asserted (held : PkKey → Option Value) (asserts : List (PkKey × Assert)) : PkKey → Option Value :=
  asserts.foldl (fun f a k => if a.1 = k then a.2.value else f k) held

/-- The sums and the distinct have counted what the keys hold. -/
structure Sound (c : MembershipCircuit D) : Prop where
  members : Projected.Sound memberOf c.members
  contributors : ∀ p, Respects p → weight p (D.contributors.tuples c.contributors) =
    (D.contribIn.relation c.members.map).entries.countP p

variable {c : MembershipCircuit D} {asserts : List (PkKey × Assert)}

lemma memberOf_congr (s t : PkKey × Value) (h : (s == t) = true) : (memberOf s == memberOf t) = true := by
  obtain ⟨hk,hv⟩ := Bool.and_eq_true_iff.mp h
  exact Bool.and_eq_true_iff.mpr ⟨by rw [eq_of_beq hk]; exact beq_self_eq_true _,hv⟩

lemma sound_start : Sound (start : MembershipCircuit D) where
  members := Projected.sound_empty
  contributors p hp := by
    rw [start,D.contributors.weight_empty p hp]
    change (0 : ℤ) = ((D.contribIn.relation D.contribIn.empty).entries.countP p : ℤ)
    rw [D.contribIn.relation_empty]
    rfl

lemma Sound.apply (h : Sound c) (asserts : List (PkKey × Assert)) : Sound (c.apply asserts).1 := by
  rw [MembershipCircuit.apply]
  split_ifs
  · exact h
  · refine ⟨h.members.push memberOf_congr _,fun p hp => ?_⟩
    rw [D.contributors.weight_add _ _ p hp,h.contributors p hp]
    change _+weight p (D.contribIn.push _ _).2 = _
    rw [D.contribIn.weight_push _ _ p hp]
    change _ = ((D.contribIn.relation (D.contribIn.push c.members.map _).1).entries.countP p : ℤ)
    ring

/-- Upserts leave what they assert. -/
lemma get?_upserted (m : AssocMap PkKey Value) (asserts : List (PkKey × Assert)) (k : PkKey) :
    (upserted m (asserts.map fun a => (a.1,a.2.value))).get? k = asserted m.get? asserts k := by
  induction asserts generalizing m with
  | nil => rfl
  | cons a asserts ih =>
    have hone : ∀ k, (upserted m [(a.1,a.2.value)]).get? k = if a.1 = k then a.2.value else m.get? k := by
      intro k
      cases ha : a.2 with
      | insert v => exact AssocMap.get?_insert_eq m a.1 k v
      | delete => simp [upserted,Assert.value,AssocMap.get?_erase]
    rw [List.map_cons]
    change (upserted (upserted m [(a.1,a.2.value)]) _).get? k = asserted _ asserts k
    rw [ih,show (upserted m [(a.1,a.2.value)]).get? = _ from funext hone]

lemma held_apply : (c.apply asserts).1.held = asserted c.held asserts := by
  funext k
  rw [MembershipCircuit.apply]
  split_ifs with hempty
  · rw [List.isEmpty_iff.mp hempty]
    rfl
  · exact (D.contribIn.get?_push _ _ k).trans (get?_upserted _ asserts k)

lemma held_start : (start : MembershipCircuit D).held = fun _ => none := by
  funext k
  rw [held,AssocMap.get?]
  change ((D.contribIn.relation D.contribIn.empty).entries.find? _).map _ = _
  rw [D.contribIn.relation_empty]
  rfl

lemma Sound.contains_eq (h : Sound c) (nodeId : ℕ) (v : Value) :
    c.contains nodeId v = decide (0 < Projected.count memberOf c.members (nodeId,v)) := by
  rw [contains,h.members.weight_eq]
  exact decide_eq_decide.mpr Int.natCast_pos

/-- A node's set has the values that some row contributes. -/
theorem Sound.contains_iff (h : Sound c) (nodeId : ℕ) (v : Value) :
    c.contains nodeId v = true ↔ ∃ pk w, c.held ⟨nodeId,pk⟩ = some w ∧ w.eqv v = true := by
  rw [h.contains_eq,decide_eq_true_iff,Projected.count_pos]
  constructor
  · rintro ⟨⟨⟨id,pk⟩,w⟩,hmem,hbeq⟩
    obtain ⟨hid,hv⟩ := Bool.and_eq_true_iff.mp hbeq
    obtain rfl := eq_of_beq hid
    exact ⟨pk,w,(AssocMap.mem_entries _ _ _).mp hmem,hv⟩
  · rintro ⟨pk,w,hheld,hv⟩
    exact ⟨(⟨nodeId,pk⟩,w),(AssocMap.mem_entries _ _ _).mpr hheld,
      Bool.and_eq_true_iff.mpr ⟨beq_self_eq_true nodeId,hv⟩⟩

/-- The deltas are the changes of the sets, each once. -/
structure Changes (sets sets' : ℕ → Value → Bool) (deltas : List MemberDelta) : Prop where
  change : ∀ d ∈ deltas, sets d.nodeId d.value = false ∧ sets' d.nodeId d.value = true ∧ d.delta = 1 ∨
    sets d.nodeId d.value = true ∧ sets' d.nodeId d.value = false ∧ d.delta = -1
  all : ∀ nodeId v, sets nodeId v ≠ sets' nodeId v → ∃ d ∈ deltas, d.nodeId = nodeId ∧ d.value.eqv v = true
  once : deltas.Pairwise fun d e => d.nodeId = e.nodeId → d.value.eqv e.value = false

lemma changes_drainFlips {sets sets' : ℕ → Value → Bool} {batch : List ((ℕ × Value) × ℤ)}
    (h : ∀ nodeId v, weight (fun t => id t == (nodeId,v)) batch =
      (if sets' nodeId v then 1 else 0)-(if sets nodeId v then 1 else 0)) :
    Changes sets sets' (drainFlips batch) where
  change d hd := by
    obtain ⟨⟨⟨nodeId,v⟩,w⟩,hmem,rfl⟩ := List.mem_map.mp hd
    obtain ⟨hw,hne⟩ := mem_groups hmem
    rw [h] at hw
    cases hold : sets nodeId v with
    | false =>
      cases hnew : sets' nodeId v with
      | false => simp [hold,hnew,hne.symm] at hw
      | true => exact .inl ⟨rfl,rfl,by simpa [hold,hnew] using hw.symm⟩
    | true =>
      cases hnew : sets' nodeId v with
      | false => exact .inr ⟨rfl,rfl,by simpa [hold,hnew] using hw.symm⟩
      | true => simp [hold,hnew,hne.symm] at hw
  all nodeId v hne := by
    have hw : weight (fun t => id t == (nodeId,v)) batch ≠ 0 := by
      rw [h]
      cases hold : sets nodeId v <;> cases hnew : sets' nodeId v <;> simp_all
    obtain ⟨⟨nodeId',v'⟩,w,hkey,hmem⟩ := exists_group hw
    obtain ⟨hid,hv⟩ := Bool.and_eq_true_iff.mp hkey
    exact ⟨⟨nodeId',v',w⟩,List.mem_map.mpr ⟨_,hmem,rfl⟩,eq_of_beq hid,hv⟩
  once := by
    refine List.pairwise_map.mpr ((pairwise_groups id batch).imp fun {s t} hst hid => ?_)
    have hkeys : (s.1.1 == t.1.1 && s.1.2 == t.1.2) = false := hst
    rwa [show s.1.1 = t.1.1 from hid,beq_self_eq_true,Bool.true_and] at hkeys

/-- A batch of assertions gives out what it changes of the sets. -/
theorem Sound.changes (h : Sound c) (asserts : List (PkKey × Assert)) :
    Changes c.contains (c.apply asserts).1.contains (c.apply asserts).2 := by
  have hnext := h.apply asserts
  rw [MembershipCircuit.apply] at hnext ⊢
  split_ifs at hnext ⊢
  · exact ⟨fun _ hd => absurd hd List.not_mem_nil,fun _ _ hne => absurd rfl hne,.nil⟩
  · have hpresent : ∀ {c : MembershipCircuit D}, Sound c → ∀ nodeId v,
        present (Projected.count memberOf c.members (nodeId,v)) = if c.contains nodeId v then 1 else 0 := by
      intro c hc nodeId v
      simp [hc.contains_eq,present]
    refine changes_drainFlips fun nodeId v => ?_
    rw [← hpresent h,← hpresent hnext]
    exact h.members.weight_push memberOf_congr (asserts.map fun a => (a.1,a.2.value)) (nodeId,v)

lemma mapSlice_append (nodeId : ℕ) (contribs : List ((PkKey × Value) × ℤ)) (t : (PkKey × Value) × ℤ) :
    mapSlice nodeId (contribs ++ [t]) =
      if t.1.1.id = nodeId ∧ 0 < t.2 ∧ t.1.1.pk ∉ (mapSlice nodeId contribs).map (·.1) then
        mapSlice nodeId contribs ++ [(t.1.1.pk,t.1.2)]
      else mapSlice nodeId contribs := by
  rw [mapSlice,List.foldl_append]
  rfl

/-- What is in the slice counts. -/
lemma mem_of_mem_mapSlice {nodeId pk : ℕ} {v : Value} {contribs : List ((PkKey × Value) × ℤ)}
    (h : (pk,v) ∈ mapSlice nodeId contribs) : ∃ w, ((⟨nodeId,pk⟩,v),w) ∈ contribs ∧ 0 < w := by
  induction contribs using List.reverseRecOn with
  | nil => cases h
  | append_singleton contribs t ih =>
    rw [mapSlice_append] at h
    split_ifs at h with ht
    · obtain h | h := List.mem_append.mp h
      · exact (ih h).imp fun w hw => hw.imp_left (List.mem_append_left _)
      · obtain ⟨rfl,rfl⟩ := Prod.mk.inj (List.mem_singleton.mp h)
        obtain ⟨rfl,hpos,-⟩ := ht
        exact ⟨t.2,List.mem_append_right _ (List.mem_singleton_self _),hpos⟩
    · exact (ih h).imp fun w hw => hw.imp_left (List.mem_append_left _)

/-- Each key with a value that counts is in the slice. -/
lemma exists_mem_mapSlice {k : PkKey} {v : Value} {w : ℤ} {contribs : List ((PkKey × Value) × ℤ)}
    (h : ((k,v),w) ∈ contribs) (hpos : 0 < w) : k.pk ∈ (mapSlice k.id contribs).map (·.1) := by
  induction contribs using List.reverseRecOn with
  | nil => cases h
  | append_singleton contribs t ih =>
    rw [mapSlice_append]
    obtain h | h := List.mem_append.mp h
    · split_ifs
      · rw [List.map_append]
        exact List.mem_append_left _ (ih h)
      · exact ih h
    · obtain rfl := List.mem_singleton.mp h
      split_ifs with ht
      · simp
      · by_contra hnot
        exact ht ⟨rfl,hpos,hnot⟩

/-- The slice of a node has what is contributed to it. -/
theorem Sound.contributorEntries (h : Sound c) (nodeId pk : ℕ) :
    (∀ v, (pk,v) ∈ c.contributorEntries nodeId → ∃ w, c.held ⟨nodeId,pk⟩ = some w ∧ w.eqv v = true) ∧
    ∀ w, c.held ⟨nodeId,pk⟩ = some w → ∃ v, w.eqv v = true ∧ (pk,v) ∈ c.contributorEntries nodeId := by
  have hweight : ∀ t : PkKey × Value, weight (fun u => id u == t) (D.contributors.tuples c.contributors) =
      ((D.contribIn.relation c.members.map).entries.countP (· == t) : ℤ) :=
    fun t => h.contributors _ (respects_beq t)
  have hslice : ∀ v, (pk,v) ∈ c.contributorEntries nodeId → ∃ w, c.held ⟨nodeId,pk⟩ = some w ∧ w.eqv v = true := by
    intro v hv
    obtain ⟨w,hmem,hpos⟩ := mem_of_mem_mapSlice hv
    have hcount := (mem_groups hmem).1
    rw [hweight] at hcount
    obtain ⟨⟨k,w'⟩,hin,hkey⟩ := List.countP_pos_iff.mp (by omega : 0 <
      (D.contribIn.relation c.members.map).entries.countP (· == ((⟨nodeId,pk⟩ : PkKey),v)))
    obtain ⟨hk,hw⟩ := Bool.and_eq_true_iff.mp hkey
    obtain rfl := eq_of_beq hk
    exact ⟨w',(AssocMap.mem_entries _ _ _).mp hin,hw⟩
  refine ⟨hslice,fun w hw => ?_⟩
  have hin := (AssocMap.mem_entries _ _ _).mpr hw
  have hpos : 0 < (D.contribIn.relation c.members.map).entries.countP (· == ((⟨nodeId,pk⟩ : PkKey),w)) :=
    List.countP_pos_iff.mpr ⟨_,hin,BEq.rfl⟩
  have hne : weight (fun u => id u == ((⟨nodeId,pk⟩ : PkKey),w)) (D.contributors.tuples c.contributors) ≠ 0 := by
    rw [hweight]
    omega
  obtain ⟨⟨k,v⟩,n,hkey,hmem⟩ := exists_group hne
  obtain ⟨hk,hv⟩ := Bool.and_eq_true_iff.mp hkey
  obtain rfl := eq_of_beq hk
  have hn := (mem_groups hmem).1
  rw [hweight] at hn
  have hsame : (D.contribIn.relation c.members.map).entries.countP (· == ((⟨nodeId,pk⟩ : PkKey),v)) =
      (D.contribIn.relation c.members.map).entries.countP (· == ((⟨nodeId,pk⟩ : PkKey),w)) :=
    List.countP_congr fun _ _ => by rw [BEq.congr_right hkey]
  obtain ⟨⟨_,v'⟩,hv',rfl⟩ := List.mem_map.mp (exists_mem_mapSlice hmem (by omega))
  obtain ⟨w',hw',heqv⟩ := hslice v' hv'
  obtain rfl := Option.some.inj (hw.symm.trans hw')
  exact ⟨v',heqv,hv'⟩

/-- The circuit after some batches. -/
def run (batches : List (List (PkKey × Assert))) : MembershipCircuit D :=
  batches.foldl (fun c asserts => (c.apply asserts).1) start

lemma sound_run (batches : List (List (PkKey × Assert))) : Sound (run batches : MembershipCircuit D) := by
  have hgen : ∀ c : MembershipCircuit D, Sound c →
      Sound (batches.foldl (fun c asserts => (c.apply asserts).1) c) := by
    induction batches with
    | nil => exact fun _ h => h
    | cons asserts batches ih => exact fun c h => ih _ (h.apply asserts)
  exact hgen start sound_start

lemma held_run (batches : List (List (PkKey × Assert))) :
    (run batches : MembershipCircuit D).held = asserted (fun _ => none) batches.flatten := by
  have hgen : ∀ c : MembershipCircuit D,
      (batches.foldl (fun c asserts => (c.apply asserts).1) c).held = asserted c.held batches.flatten := by
    induction batches with
    | nil => exact fun _ => rfl
    | cons asserts batches ih =>
      intro c
      rw [List.foldl_cons,ih,held_apply,List.flatten_cons,asserted,asserted,asserted,List.foldl_append]
  rw [run,hgen start,held_start]

/-- However assertions are batched: a node's set has a value exactly if some row was last told to contribute it, its
slice has what its rows were last told to contribute, and each batch gives out exactly the changes of the sets. -/
theorem run_exact (D : Dbsp) (batches : List (List (PkKey × Assert))) (asserts : List (PkKey × Assert)) :
    let c : MembershipCircuit D := run batches
    let held := asserted (fun _ => none) batches.flatten
    (∀ nodeId v, c.contains nodeId v = true ↔ ∃ pk w, held ⟨nodeId,pk⟩ = some w ∧ w.eqv v = true) ∧
    (∀ nodeId pk, (∀ v, (pk,v) ∈ c.contributorEntries nodeId → ∃ w, held ⟨nodeId,pk⟩ = some w ∧ w.eqv v = true) ∧
      ∀ w, held ⟨nodeId,pk⟩ = some w → ∃ v, w.eqv v = true ∧ (pk,v) ∈ c.contributorEntries nodeId) ∧
    Changes c.contains (c.apply asserts).1.contains (c.apply asserts).2 := by
  intro c held
  have hsound : Sound c := sound_run batches
  have hheld : c.held = held := held_run batches
  rw [← hheld]
  exact ⟨hsound.contains_iff,hsound.contributorEntries,hsound.changes asserts⟩

end MembershipCircuit

/-- The library with all states kept whole. -/
def Dbsp.whole : Dbsp := ⟨.whole,.whole,.whole,.whole⟩

/-- A row moves from 7 to 8 while another one stays at 7. -/
theorem MembershipCircuit.sample_run_exact :
    let c : MembershipCircuit Dbsp.whole := run [[(⟨1,1⟩,.insert (.int 7))],[(⟨1,2⟩,.insert (.int 7))]]
    let next := c.apply [(⟨1,1⟩,.insert (.int 8))]
    (c.contains 1 (.int 7) = true ∧ next.1.contains 1 (.int 7) = true ∧ next.1.contains 1 (.int 8) = true) ∧
    (∃ v, (Value.int 7).eqv v = true ∧ (1,v) ∈ c.contributorEntries 1) ∧
    Changes c.contains next.1.contains next.2 ∧ next.2.map (fun d => (d.nodeId,d.delta)) = [(1,1)] := by
  intro c next
  obtain ⟨hcontains,hentries,hchanges⟩ :=
    run_exact Dbsp.whole [[(⟨1,1⟩,.insert (.int 7))],[(⟨1,2⟩,.insert (.int 7))]] [(⟨1,1⟩,.insert (.int 8))]
  obtain ⟨hnext,-,-⟩ := run_exact Dbsp.whole
    [[(⟨1,1⟩,.insert (.int 7))],[(⟨1,2⟩,.insert (.int 7))],[(⟨1,1⟩,.insert (.int 8))]] []
  refine ⟨⟨?_,?_,?_⟩,?_,hchanges,by decide⟩
  · exact (hcontains 1 _).mpr ⟨1,.int 7,rfl,rfl⟩
  · exact (hnext 1 _).mpr ⟨2,.int 7,rfl,rfl⟩
  · exact (hnext 1 _).mpr ⟨1,.int 8,rfl,rfl⟩
  · exact (hentries 1 1).2 (.int 7) rfl

end ElectricCircuits
