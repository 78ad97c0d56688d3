import ElectricCircuits.Subquery.ShapeView

/-! The versions of a row in the log of its table, and what a snapshot sees of them: the commits that it sees
are closed under what came before them on the same row, so it sees the first versions of each row. -/
namespace ElectricCircuits

/-- A committed change of a table. -/
structure RowEvent where
  change : RowChange Row
  stamp : CommitStamp
  txid : Option String

namespace RowEvent
variable (ts : TableSchema) (k : String)

def delta (e : RowEvent) : Delta := imageDelta e.change.old e.change.new

/-- What a change leaves under a key that it concerns. -/
def write (e : RowEvent) : Option (Option Row) :=
  if e.change.new.any (ts.name · = k) then some e.change.new
  else if e.change.old.any (ts.name · = k) then some none
  else none

end RowEvent

/-- A commit that the gate counts as seen. -/
def SnapshotGate.sees (gate : SnapshotGate) (e : RowEvent) : Bool := gate.shouldSkip e.stamp.1 e.stamp.2

section
variable (ts : TableSchema) (base : String → Option Row) (k : String)

/-- What the changes of a log wrote under a key. -/
def writes (es : List RowEvent) : List (Option Row) := es.filterMap (RowEvent.write ts k)

/-- The row under a key after the changes. -/
def rowAt (es : List RowEvent) : Option Row := (writes ts k es).getLast?.getD (base k)

/-- The versions of the row under a key, from the first one on. -/
def version (log : List RowEvent) (n : ℕ) : Option Row := (base k :: writes ts k log)[n]?.join

variable {ts base k} {es es' log : List RowEvent}

@[simp] lemma writes_nil : writes ts k [] = [] := rfl

@[simp] lemma writes_append : writes ts k (es ++ es') = writes ts k es ++ writes ts k es' := List.filterMap_append

lemma writes_cons (e : RowEvent) : writes ts k (e :: es) = (e.write ts k).toList ++ writes ts k es := by
  rw [writes,List.filterMap_cons]
  cases e.write ts k <;> rfl

/-- The row under a key is its version as of the changes, for every log that goes on from there. -/
lemma version_take (h : writes ts k es <+: writes ts k log) :
    version ts base k log (writes ts k es).length = rowAt ts base k es := by
  obtain ⟨rest,hrest⟩ := h
  rw [version,rowAt,← hrest]
  rcases List.eq_nil_or_concat (writes ts k es) with hnil | ⟨ws,w,hws⟩
  · rw [hnil]
    rfl
  · rw [hws,List.concat_eq_append,List.length_append,List.length_singleton,List.getElem?_cons_succ,List.append_assoc,
      List.getElem?_append_right (Nat.le_refl _),Nat.sub_self,List.getLast?_append]
    rfl

/-- The version that a change leaves. -/
lemma version_write {pre post : List RowEvent} {e : RowEvent} {r : Option Row} (hlog : log = pre ++ e :: post)
    (he : e.write ts k = some r) : version ts base k log ((writes ts k pre).length+1) = r := by
  have hws : writes ts k (pre ++ [e]) = writes ts k pre ++ [r] := by simp [writes_cons,he]
  have hv := @version_take ts base k (pre ++ [e]) log
    ⟨writes ts k post,by rw [hlog]; simp [writes_cons,he]⟩
  rw [hws,List.length_append,List.length_singleton] at hv
  rw [hv,rowAt,hws,List.getLast?_append]
  rfl

/-- What a closed part of a log writes is what is written first. -/
lemma writes_filter_prefix (sees : RowEvent → Bool)
    (h : es.Pairwise fun d e => d.write ts k ≠ none → e.write ts k ≠ none → sees e = true → sees d = true) :
    writes ts k (es.filter sees) <+: writes ts k es := by
  induction es with
  | nil => exact List.prefix_refl _
  | cons d es ih =>
    obtain ⟨hd,hes⟩ := List.pairwise_cons.mp h
    cases hs : sees d with
    | true =>
      rw [List.filter_cons_of_pos hs,writes_cons,writes_cons]
      exact List.prefix_append_right_inj _ |>.mpr (ih hes)
    | false =>
      rw [List.filter_cons_of_neg (by simp [hs]),writes_cons]
      cases hw : d.write ts k with
      | none => exact ih hes
      | some r =>
        -- what comes after an unseen version of the row is unseen
        have hnil : writes ts k (es.filter sees) = [] := by
          rw [writes,List.filterMap_eq_nil_iff]
          intro e he
          obtain ⟨he,hse⟩ := List.mem_filter.mp he
          by_contra hne
          have hsd := hd e he (by simp [hw]) hne hse
          rw [hs] at hsd
          cases hsd
        rw [hnil]
        exact List.nil_prefix

/-- A closed part of a log sees a change of the row exactly if it sees that many versions. -/
lemma sees_iff_count {sees : RowEvent → Bool} {pre post : List RowEvent} {e : RowEvent}
    (h : (pre ++ e :: post).Pairwise fun d e =>
      d.write ts k ≠ none → e.write ts k ≠ none → sees e = true → sees d = true) (he : e.write ts k ≠ none) :
    sees e = true ↔ (writes ts k pre).length < (writes ts k ((pre ++ e :: post).filter sees)).length := by
  obtain ⟨r,hr⟩ := Option.ne_none_iff_exists'.mp he
  obtain ⟨hpre,hpost,hcross⟩ := List.pairwise_append.mp h
  obtain ⟨hafter,-⟩ := List.pairwise_cons.mp hpost
  cases hs : sees e with
  | true =>
    have hall : writes ts k (pre.filter sees) = writes ts k pre := by
      rw [writes,writes,List.filterMap_filter]
      refine List.filterMap_congr fun d hd => ?_
      by_cases hw : d.write ts k = none
      · simp [hw]
      · rw [if_pos (hcross d hd e List.mem_cons_self hw he hs)]
    simp [List.filter_append,hs,writes_cons,hr,hall]
  | false =>
    have hnil : writes ts k (post.filter sees) = [] := by
      rw [writes,List.filterMap_eq_nil_iff]
      intro d hd
      obtain ⟨hd,hsd⟩ := List.mem_filter.mp hd
      by_contra hne
      have hse := hafter d hd he hne hsd
      rw [hs] at hse
      cases hse
    have hle : (writes ts k (pre.filter sees)).length ≤ (writes ts k pre).length :=
      ((List.filter_sublist (p := sees)).filterMap _).length_le
    simp [List.filter_append,hs,hnil,hle]

end

/-- A change that a table with these rows can make. -/
structure RowEvent.Fits (ts : TableSchema) (cur : String → Option Row) (e : RowEvent) : Prop where
  old_row : ∀ o ∈ e.change.old, ts.IsRow o
  new_row : ∀ n ∈ e.change.new, ts.IsRow n
  told : ∀ o ∈ e.change.old, ∀ n ∈ e.change.new, (o == n) = false
  held : ∀ o ∈ e.change.old, cur (ts.name o) = some o
  free : ∀ n ∈ e.change.new, (∀ o ∈ e.change.old, ts.name o ≠ ts.name n) → cur (ts.name n) = none

namespace RowEvent
variable {ts : TableSchema} {cur : String → Option Row} {e : RowEvent} {k : String}

lemma Fits.delta_eq (h : e.Fits ts cur) :
    e.delta = (e.change.old.map (·,(-1 : ℤ))).toList ++ (e.change.new.map (·,(1 : ℤ))).toList := by
  have htold := h.told
  rw [delta]
  cases ho : e.change.old <;> cases hn : e.change.new <;> simp_all [imageDelta]

/-- A change of a key leaves its row, or no row. -/
lemma write_cases (ts : TableSchema) (k : String) (e : RowEvent) : e.write ts k = none ∧
      (∀ n ∈ e.change.new, ts.name n ≠ k) ∧ (∀ o ∈ e.change.old, ts.name o ≠ k) ∨
    (∃ n ∈ e.change.new, ts.name n = k ∧ e.write ts k = some (some n)) ∨
    (∃ o ∈ e.change.old, ts.name o = k ∧ (∀ n ∈ e.change.new, ts.name n ≠ k) ∧ e.write ts k = some none) := by
  rw [write]
  cases hn : e.change.new with
  | some n =>
    by_cases hnk : ts.name n = k
    · exact .inr (.inl ⟨n,rfl,hnk,by simp [hnk]⟩)
    · cases ho : e.change.old with
      | none => exact .inl (by simp [hnk])
      | some o => by_cases hok : ts.name o = k <;> simp [hnk,hok]
  | none =>
    cases ho : e.change.old with
    | none => exact .inl (by simp)
    | some o => by_cases hok : ts.name o = k <;> simp [hok]

lemma latest_images (o n : Option Row) (ho : ∀ r ∈ o, ts.IsRow r) (hn : ∀ r ∈ n, ts.IsRow r) :
    (latestRowsByPk ts ((o.map (·,(-1 : ℤ))).toList ++ (n.map (·,(1 : ℤ))).toList)).values =
      ((o.filter fun o => n.all fun n => ts.name o ≠ ts.name n).map (·,false)).toList ++ (n.map (·,true)).toList := by
  have hpk : ∀ r, ts.IsRow r → (ts.keyString r).toOption.getD "" = ts.name r := fun r hr => by
    rw [TableSchema.keyString_eq hr]
    rfl
  cases o with
  | none =>
    cases n with
    | none => rfl
    | some n => rfl
  | some o =>
    cases n with
    | none => rfl
    | some n =>
      have hop := hpk o (ho o rfl)
      have hnp := hpk n (hn n rfl)
      by_cases hk : ts.name o = ts.name n
      · simp [latestRowsByPk,AssocMap.modify,AssocMap.insert,AssocMap.empty,AssocMap.values,hop,hnp,hk]
      · simp [latestRowsByPk,AssocMap.modify,AssocMap.insert,AssocMap.empty,AssocMap.values,AssocMap.get?,hop,hnp,hk,
          Option.filter_some]

/-- The newest rows of a change: its new image, and its old one where that had another key. -/
lemma Fits.candidates (h : e.Fits ts cur) (c : Row × Bool) :
    c ∈ (latestRowsByPk ts e.delta).values ↔ (∃ n ∈ e.change.new, c = (n,true)) ∨
      ∃ o ∈ e.change.old, (∀ n ∈ e.change.new, ts.name o ≠ ts.name n) ∧ c = (o,false) := by
  rw [h.delta_eq,latest_images _ _ h.old_row h.new_row,List.mem_append,or_comm]
  simp only [Option.mem_toList,Option.mem_def,Option.map_eq_some_iff,Option.filter_eq_some_iff,Option.all_eq_true,
    decide_eq_true_eq,and_assoc,eq_comm (a := c)]

/-- The candidate that a change brings for a key that it concerns. -/
lemma Fits.at_key (h : e.Fits ts cur) :
    (e.write ts k = none → candidateAt ts (latestRowsByPk ts e.delta).values k = none) ∧
    (∀ n, e.write ts k = some (some n) → candidateAt ts (latestRowsByPk ts e.delta).values k = some (n,true)) ∧
    (e.write ts k = some none → ∃ o, candidateAt ts (latestRowsByPk ts e.delta).values k = some (o,false)) := by
  have hsome : ∀ c, candidateAt ts (latestRowsByPk ts e.delta).values k = some c ↔ _ := fun c =>
    @candidateAt_eq_some ts _ k c (distinct_latest ts e.delta)
  have hold := fun o ho => TableSchema.keyString_eq (h.old_row o ho)
  have hnew := fun n hn => TableSchema.keyString_eq (h.new_row n hn)
  refine ⟨fun hw => ?_,fun n hw => ?_,fun hw => ?_⟩
  · rw [candidateAt_eq_none]
    intro c hc hkey
    rcases e.write_cases ts k with ⟨-,hn,ho⟩ | ⟨n,-,-,hw'⟩ | ⟨o,-,-,-,hw'⟩
    · rcases (h.candidates c).mp hc with ⟨n,hnmem,rfl⟩ | ⟨o,homem,-,rfl⟩
      · exact hn n hnmem (Except.ok.inj ((hnew n hnmem).symm.trans hkey))
      · exact ho o homem (Except.ok.inj ((hold o homem).symm.trans hkey))
    · cases hw.symm.trans hw'
    · cases hw.symm.trans hw'
  · rcases e.write_cases ts k with ⟨hw',-⟩ | ⟨n',hn,hnk,hw'⟩ | ⟨o,-,-,-,hw'⟩
    · cases hw.symm.trans hw'
    · obtain rfl : n = n' := Option.some.inj (Option.some.inj (hw.symm.trans hw'))
      exact (hsome _).mpr ⟨(h.candidates _).mpr (.inl ⟨n,hn,rfl⟩),by rw [hnew n hn,hnk]⟩
    · cases Option.some.inj (hw.symm.trans hw')
  · rcases e.write_cases ts k with ⟨hw',-⟩ | ⟨n,-,-,hw'⟩ | ⟨o,ho,hok,hno,-⟩
    · cases hw.symm.trans hw'
    · cases Option.some.inj (hw.symm.trans hw')
    · refine ⟨o,(hsome _).mpr ⟨(h.candidates _).mpr (.inr ⟨o,ho,fun n hn heq => ?_,rfl⟩),by rw [hold o ho,hok]⟩⟩
      exact hno n hn (heq.symm.trans hok)

/-- A row that was inserted into an empty table is the only one there. -/
lemma eq_of_rowAt_insert {ts : TableSchema} {k : String} {new r : Row} {stamp : CommitStamp} {txid : Option String}
    (h : rowAt ts (fun _ => none) k [⟨⟨none,some new⟩,stamp,txid⟩] = some r) : r = new := by
  rw [rowAt] at h
  rcases write_cases ts k ⟨⟨none,some new⟩,stamp,txid⟩ with ⟨hw,-⟩ | ⟨n,hn,-,hw⟩ | ⟨o,ho,-⟩
  · rw [writes_cons,hw] at h
    cases h
  · obtain rfl := Option.some.inj hn
    rw [writes_cons,hw] at h
    exact (Option.some.inj h).symm
  · cases ho

end RowEvent
end ElectricCircuits
