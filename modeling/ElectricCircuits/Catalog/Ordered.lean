import ElectricCircuits.Catalog.Memory
import ElectricCircuits.Lib.Once

/-! The order in which the engine records the life of a shape (`Created`, `Dropped`, `Retired`), and
what the fold makes of a log in that order. -/
namespace ElectricCircuits

/-- The stream of a shape. -/
def shapePath (id : String) : String := "shape/" ++ id

lemma shapePath_inj {id id' : String} : shapePath id = shapePath id' ↔ id = id' := by
  refine ⟨fun h => ?_,congrArg shapePath⟩
  have hl := congrArg String.toList h
  rw [shapePath,shapePath,String.toList_append,String.toList_append] at hl
  exact String.toList_inj.mp (List.append_cancel_left hl)

lemma shapeIdNum_shapeId {n : ℕ} (h : n < 2^64) : shapeIdNum (shapeId n) = some n := by
  rw [shapeIdNum,shapeId,String.toList_append]
  simp only [Nat.toList_repr]
  exact parseUnsigned_toDigits h

/-- A reader of the writer's log takes each event once. -/
lemma CatalogWriter.Repeats.values_eq {E : Type*} {past log : List (CatalogSend E)}
    (h : CatalogWriter.Repeats past log) {nonce : String} {seen : List (String × ℕ)}
    (hnodup : (past.map (·.seq)).Nodup) (hfresh : ∀ n, (nonce,n) ∉ seen) :
    Once.values seen (log.map fun m => ((nonce,m.seq),m.ev)) = past.map (·.ev) := by
  have hkey : ∀ (log : List (CatalogSend E)) (n : ℕ),
      (nonce,n) ∈ (log.map fun m => ((nonce,m.seq),m.ev)).map (·.1) ++ seen ↔
        ∃ m ∈ log, m.seq = n := fun log n => by
    simp [hfresh n]
  induction h with
  | nil => rfl
  | @store past log h m ih =>
    rw [List.map_append,List.nodup_append] at hnodup
    rw [List.map_append,List.map_append,List.map_singleton,List.map_singleton,← ih hnodup.1]
    refine Once.values_store _ fun hmem => ?_
    obtain ⟨m',hm',heq⟩ := (hkey log m.seq).mp hmem
    exact hnodup.2.2 _ (List.mem_map_of_mem ((h.mem_iff m').mp hm')) m.seq (by simp) heq
  | @again past log m h ih =>
    rw [List.map_append,List.map_singleton,← ih hnodup]
    exact Once.values_again _ ((hkey log m.seq).mpr ⟨m,(h.mem_iff m).mpr (by simp),rfl⟩)

namespace CatalogEvent
variable {D : Type*}

def createdRec : CatalogEvent D → Option (ShapeRecord D)
  | .created rec _ _ _ => some rec
  | _ => none

/-- An event that neither begins nor ends a shape. -/
def plain : CatalogEvent D → Bool
  | .created .. => false
  | .dropped _ => false
  | .retired _ => false
  | _ => true

lemma createdRec_of_plain {ev : CatalogEvent D} (h : ev.plain = true) : ev.createdRec = none := by
  cases ev with
  | created => cases h
  | _ => rfl

/-- The log creates this record. -/
def Creates (es : List (CatalogEvent D)) (rec : ShapeRecord D) : Prop :=
  ∃ e ∈ es, e.createdRec = some rec

/-- What the log must hold before an event. -/
def Follows (es : List (CatalogEvent D)) : CatalogEvent D → Prop
  | .created rec _ _ _ => ∀ rec', Creates es rec' → rec'.id ≠ rec.id
  | .dropped id => ∃ rec, Creates es rec ∧ rec.id = id
  | .retired id => .dropped id ∈ es
  | _ => True

/-- A shape is created once, dropped after it was created and retired after it was dropped. -/
inductive Ordered : List (CatalogEvent D) → Prop where
  | nil : Ordered []
  | snoc {es : List (CatalogEvent D)} {ev : CatalogEvent D} (h : Ordered es) (hev : Follows es ev) :
    Ordered (es ++ [ev])

section
variable {es es' : List (CatalogEvent D)} {ev : CatalogEvent D} {rec : ShapeRecord D} {id : String}

lemma Creates.mono (h : Creates es rec) (hes : es <+: es') : Creates es' rec := by
  obtain ⟨e,he,hrec⟩ := h
  exact ⟨e,hes.subset he,hrec⟩

lemma creates_snoc : Creates (es ++ [ev]) rec ↔ Creates es rec ∨ ev.createdRec = some rec := by
  simp [Creates,or_and_right,exists_or]

lemma not_creates_nil : ¬Creates ([] : List (CatalogEvent D)) rec := fun ⟨_,he,_⟩ => nomatch he

lemma Ordered.of_prefix (h : Ordered es') (hes : es <+: es') : Ordered es := by
  induction h with
  | nil => exact List.prefix_nil.mp hes ▸ .nil
  | @snoc es' ev h hev ih =>
    rcases List.prefix_concat_iff.mp hes with rfl | hes
    · exact h.snoc hev
    · exact ih hes

lemma Ordered.of_dropped (h : Ordered es) (hid : .dropped id ∈ es) :
    ∃ rec, Creates es rec ∧ rec.id = id := by
  induction h with
  | nil => cases hid
  | @snoc es ev h hev ih =>
    rcases List.mem_append.mp hid with hid | hid
    · obtain ⟨rec,hrec,heq⟩ := ih hid
      exact ⟨rec,hrec.mono (List.prefix_append _ _),heq⟩
    · obtain rfl := List.mem_singleton.mp hid
      obtain ⟨rec,hrec,heq⟩ := hev
      exact ⟨rec,hrec.mono (List.prefix_append _ _),heq⟩

end
end CatalogEvent

namespace CatalogFold
variable {D : Type*}
open CatalogEvent

/-- The fold of the whole log. -/
def foldEntries (es : List ((String × ℕ) × CatalogEvent D)) : CatalogFold D :=
  es.foldl (fun f e => f.applyOnce e.1 e.2) .default

lemma applyAll_seen (f : CatalogFold D) (evs : List (CatalogEvent D)) (seen : List (String × ℕ)) :
    applyAll { f with seen } evs = { f.applyAll evs with seen } := by
  induction evs generalizing f with
  | nil => rfl
  | cons ev evs ih =>
    simp only [applyAll,List.foldl_cons,apply_seen] at ih ⊢
    exact ih _

/-- The fold applies an event that the log repeats once. -/
theorem foldl_applyOnce (f : CatalogFold D) (es : List ((String × ℕ) × CatalogEvent D)) :
    ∃ seen, es.foldl (fun f e => f.applyOnce e.1 e.2) f =
      { f.applyAll (Once.values f.seen es) with seen } := by
  induction es generalizing f with
  | nil => exact ⟨f.seen,rfl⟩
  | cons e es ih =>
    rw [List.foldl_cons,Once.values]
    by_cases he : e.1 ∈ f.seen
    · rw [if_pos he,applyOnce,if_pos he]
      exact ih f
    · rw [if_neg he,applyOnce,if_neg he,apply_seen]
      obtain ⟨seen,hfold⟩ := ih { f.apply e.2 with seen := e.1::f.seen }
      rw [applyAll_seen] at hfold
      exact ⟨seen,hfold⟩

/-- What the fold of an ordered log has: the records of the shapes that are not dropped, and a
retirement for each that is dropped and not retired. -/
structure Digest (es : List (CatalogEvent D)) (f : CatalogFold D) : Prop where
  recs : ∀ id r, f.recs.get? id = some r → .dropped id ∉ es ∧
    ∃ rec, Creates es rec ∧ rec.id = id ∧ rec.streamPath = r.record.streamPath
  kept : ∀ rec, Creates es rec → .dropped rec.id ∉ es → ∃ r, f.recs.get? rec.id = some r
  pending : ∀ id path, f.pendingRetire.get? id = some path → .dropped id ∈ es ∧
    ∃ rec, Creates es rec ∧ rec.id = id ∧ rec.streamPath = path
  owed : ∀ id, .dropped id ∈ es → .retired id ∈ es ∨ ∃ path, f.pendingRetire.get? id = some path
  marked : ∀ rec n, Creates es rec → shapeIdNum rec.id = some n →
    ∃ max, f.maxShapeId = some max ∧ n ≤ max
  mark : ∀ max, f.maxShapeId = some max → ∃ rec, Creates es rec ∧ shapeIdNum rec.id = some max

section
variable {es : List (CatalogEvent D)} {f : CatalogFold D}

lemma Digest.nil : Digest ([] : List (CatalogEvent D)) .default where
  recs _ _ h := nomatch h
  kept _ h := absurd h not_creates_nil
  pending _ _ h := nomatch h
  owed _ h := nomatch h
  marked _ _ h := absurd h not_creates_nil
  mark _ h := nomatch h

/-- An event after which the same shapes have the same streams. -/
lemma Digest.plain (h : Digest es f) {ev : CatalogEvent D} (hev : ev.plain = true) {f' : CatalogFold D}
    (hrecs : ∀ id, (f'.recs.get? id).map (·.record.streamPath) =
      (f.recs.get? id).map (·.record.streamPath))
    (hpending : f'.pendingRetire = f.pendingRetire) (hmax : f'.maxShapeId = f.maxShapeId) :
    Digest (es ++ [ev]) f' := by
  have hcreates : ∀ rec, Creates (es ++ [ev]) rec ↔ Creates es rec := fun rec => by
    simp [creates_snoc,createdRec_of_plain hev]
  have hdropped : ∀ id, .dropped id ∈ es ++ [ev] ↔ .dropped id ∈ es := fun id => by
    cases ev <;> simp_all [CatalogEvent.plain]
  have hretired : ∀ id, .retired id ∈ es ++ [ev] ↔ .retired id ∈ es := fun id => by
    cases ev <;> simp_all [CatalogEvent.plain]
  refine ⟨fun id r hr => ?_,fun rec hrec hid => ?_,?_,?_,?_,?_⟩
  · have hpath := hrecs id
    rw [hr,Option.map_some,eq_comm,Option.map_eq_some_iff] at hpath
    obtain ⟨r',hr',hpath⟩ := hpath
    rw [hdropped,← hpath]
    simp only [hcreates]
    exact h.recs id r' hr'
  · rw [hdropped] at hid
    obtain ⟨r,hr⟩ := h.kept rec ((hcreates rec).mp hrec) hid
    have hpath := hrecs rec.id
    rw [hr,Option.map_some,Option.map_eq_some_iff] at hpath
    obtain ⟨r',hr',-⟩ := hpath
    exact ⟨r',hr'⟩
  · simp only [hpending,hcreates,hdropped]
    exact h.pending
  · simp only [hpending,hdropped,hretired]
    exact h.owed
  · simp only [hmax,hcreates]
    exact h.marked
  · simp only [hmax,hcreates]
    exact h.mark

lemma Digest.edit (h : Digest es f) {ev : CatalogEvent D} (hev : ev.plain = true) (id : String)
    {change : Restored D → Restored D}
    (hpath : ∀ r, (change r).record.streamPath = r.record.streamPath) :
    Digest (es ++ [ev]) (f.edit id change) := by
  refine h.plain hev (fun id' => ?_) ?_ ?_
  · rw [recs_edit]
    split_ifs with heq
    · subst heq
      cases f.recs.get? id with
      | none => rfl
      | some r => exact congrArg some (hpath r)
    · rfl
  · unfold CatalogFold.edit
    cases f.recs.get? id <;> rfl
  · unfold CatalogFold.edit
    cases f.recs.get? id <;> rfl

lemma Digest.created (h : Digest es f) {rec : ShapeRecord D} (hdrop : .dropped rec.id ∉ es)
    (sig : Option String) (sub : String) (now : ℕ) :
    Digest (es ++ [.created rec sig sub now]) (f.apply (.created rec sig sub now)) := by
  have hcreates : ∀ rec', Creates (es ++ [.created rec sig sub now]) rec' ↔
      Creates es rec' ∨ rec = rec' := fun rec' => by
    rw [creates_snoc,createdRec,Option.some.injEq]
  refine ⟨fun id r hr => ?_,fun rec' hrec hid => ?_,fun id path hp => ?_,fun id hid => ?_,
    fun rec' n hrec hn => ?_,fun max hmax => ?_⟩
  · rw [recs_created] at hr
    simp only [List.mem_append,List.mem_singleton,reduceCtorEq,or_false,hcreates]
    split_ifs at hr with heq
    · cases hr
      exact ⟨heq ▸ hdrop,rec,.inr rfl,heq,rfl⟩
    · obtain ⟨hid,rec',hrec,hrest⟩ := h.recs id r hr
      exact ⟨hid,rec',.inl hrec,hrest⟩
  · rw [recs_created]
    split_ifs with heq
    · exact ⟨_,rfl⟩
    · rcases (hcreates rec').mp hrec with hrec | rfl
      · exact h.kept rec' hrec fun hmem => hid (List.mem_append_left _ hmem)
      · exact absurd rfl heq
  · obtain ⟨hid,rec',hrec,hrest⟩ := h.pending id path hp
    exact ⟨List.mem_append_left _ hid,rec',(hcreates rec').mpr (.inl hrec),hrest⟩
  · simp only [List.mem_append,List.mem_singleton,reduceCtorEq,or_false] at hid ⊢
    exact h.owed id hid
  · simp only [apply]
    rcases (hcreates rec').mp hrec with hrec | rfl
    · obtain ⟨max,hmax,hle⟩ := h.marked rec' n hrec hn
      rw [hmax]
      cases shapeIdNum rec.id with
      | none => exact ⟨max,rfl,hle⟩
      | some num => exact ⟨_,rfl,hle.trans (le_max_left _ _)⟩
    · rw [hn]
      cases f.maxShapeId with
      | none => exact ⟨n,rfl,le_rfl⟩
      | some max => exact ⟨_,rfl,le_max_right _ _⟩
  · simp only [apply] at hmax
    simp only [hcreates]
    have hold : f.maxShapeId = some max → ∃ rec', (Creates es rec' ∨ rec = rec') ∧
        shapeIdNum rec'.id = some max := fun hmax => by
      obtain ⟨rec',hrec,hn⟩ := h.mark max hmax
      exact ⟨rec',.inl hrec,hn⟩
    cases hn : shapeIdNum rec.id with
    | none =>
      rw [hn] at hmax
      exact hold hmax
    | some num =>
      rw [hn] at hmax
      have hmax := Option.some.inj hmax
      cases hf : f.maxShapeId with
      | none =>
        rw [hf] at hmax
        exact ⟨rec,.inr rfl,hn.trans (congrArg some hmax)⟩
      | some m =>
        rw [hf] at hmax
        rcases max_choice m num with hm | hm
        · exact hold (hf.trans (congrArg some (hm.symm.trans hmax)))
        · exact ⟨rec,.inr rfl,hn.trans (congrArg some (hm.symm.trans hmax))⟩

lemma Digest.dropped (h : Digest es f) {id : String} (hev : ∃ rec, Creates es rec ∧ rec.id = id) :
    Digest (es ++ [.dropped id]) (f.apply (.dropped id)) := by
  have hcreates : ∀ rec, Creates (es ++ [.dropped id]) rec ↔ Creates es rec := fun rec => by
    simp [creates_snoc,createdRec]
  have hmax : (f.apply (.dropped id)).maxShapeId = f.maxShapeId := by
    simp only [apply]
    cases f.recs.get? id <;> rfl
  refine ⟨fun id' r hr => ?_,fun rec hrec hid => ?_,fun id' path hp => ?_,fun id' hid => ?_,?_,?_⟩
  · rw [recs_dropped] at hr
    simp only [List.mem_append,List.mem_singleton,CatalogEvent.dropped.injEq,hcreates]
    split_ifs at hr with heq
    obtain ⟨hid,hrec⟩ := h.recs id' r hr
    exact ⟨not_or.mpr ⟨hid,fun h => heq h.symm⟩,hrec⟩
  · simp only [List.mem_append,List.mem_singleton,CatalogEvent.dropped.injEq,not_or] at hid
    obtain ⟨r,hr⟩ := h.kept rec ((hcreates rec).mp hrec) hid.1
    rw [recs_dropped,if_neg fun heq => hid.2 heq.symm]
    exact ⟨r,hr⟩
  · simp only [hcreates]
    cases hrec : f.recs.get? id with
    | none =>
      simp only [apply,hrec] at hp
      obtain ⟨hid,hpath⟩ := h.pending id' path hp
      exact ⟨List.mem_append_left _ hid,hpath⟩
    | some r =>
      simp only [apply,hrec,AssocMap.get?_insert_eq] at hp
      split_ifs at hp with heq
      · cases hp
        obtain ⟨-,hpath⟩ := h.recs id r hrec
        exact ⟨by simp [heq],heq ▸ hpath⟩
      · obtain ⟨hid,hpath⟩ := h.pending id' path hp
        exact ⟨List.mem_append_left _ hid,hpath⟩
  · have hold : .dropped id' ∈ es → .retired id' ∈ es ++ [.dropped id] ∨
        ∃ path, (f.apply (.dropped id)).pendingRetire.get? id' = some path := fun hmem => by
      refine (h.owed id' hmem).imp (List.mem_append_left _) ?_
      rintro ⟨path,hp⟩
      simp only [apply]
      cases f.recs.get? id with
      | none => exact ⟨path,hp⟩
      | some r =>
        simp only [AssocMap.get?_insert_eq]
        split_ifs
        · exact ⟨_,rfl⟩
        · exact ⟨path,hp⟩
    rcases List.mem_append.mp hid with hmem | hmem
    · exact hold hmem
    · obtain rfl : id' = id := by simpa using hmem
      by_cases hmem : .dropped id' ∈ es
      · exact hold hmem
      · obtain ⟨rec,hrec,rfl⟩ := hev
        obtain ⟨r,hr⟩ := h.kept rec hrec hmem
        exact .inr ⟨r.record.streamPath,by simp [apply,hr]⟩
  · simp only [hmax,hcreates]
    exact h.marked
  · simp only [hmax,hcreates]
    exact h.mark

lemma Digest.retired (h : Digest es f) {id : String} :
    Digest (es ++ [.retired id]) (f.apply (.retired id)) := by
  have hcreates : ∀ rec, Creates (es ++ [.retired id]) rec ↔ Creates es rec := fun rec => by
    simp [creates_snoc,createdRec]
  have hdropped : ∀ id', .dropped id' ∈ es ++ [.retired id] ↔ .dropped id' ∈ es := by simp
  refine ⟨?_,?_,fun id' path hp => ?_,fun id' hid => ?_,?_,?_⟩
  · simp only [hcreates,hdropped]
    exact h.recs
  · simp only [hcreates,hdropped]
    exact h.kept
  · simp only [apply,AssocMap.get?_erase] at hp
    simp only [hcreates,hdropped]
    split_ifs at hp
    exact h.pending id' path hp
  · simp only [apply,AssocMap.get?_erase]
    rcases h.owed id' ((hdropped id').mp hid) with hr | ⟨path,hp⟩
    · exact .inl (List.mem_append_left _ hr)
    · by_cases heq : id = id'
      · exact .inl (by simp [heq])
      · exact .inr ⟨path,by simpa [heq] using hp⟩
  · simp only [hcreates]
    exact h.marked
  · simp only [hcreates]
    exact h.mark

end

/-- The fold of an ordered log is its digest. -/
theorem digest_of_ordered {es : List (CatalogEvent D)} (h : Ordered es) :
    Digest es (applyAll .default es) := by
  induction h with
  | nil => exact .nil
  | @snoc es ev h hev ih =>
    have hfold : applyAll .default (es ++ [ev]) = apply (applyAll .default es) ev := by
      simp [applyAll]
    rw [hfold]
    cases ev with
    | created rec sig sub now =>
      refine ih.created (fun hmem => ?_) sig sub now
      obtain ⟨rec',hrec,heq⟩ := h.of_dropped hmem
      exact hev rec' hrec heq
    | dropped id => exact ih.dropped hev
    | retired id => exact ih.retired
    | joined => exact ih.edit rfl _ fun _ => rfl
    | left => exact ih.edit rfl _ fun _ => rfl
    | dormant => exact ih.edit rfl _ fun _ => rfl
    | reactivated => exact ih.edit rfl _ fun _ => rfl
    | backfillSized => exact ih.edit rfl _ fun _ => rfl
    | elsewhere => exact ih.plain rfl (fun _ => rfl) rfl rfl

end CatalogFold
end ElectricCircuits
