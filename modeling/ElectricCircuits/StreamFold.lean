import ElectricCircuits.FanOut
import ElectricCircuits.KeyString
import ElectricCircuits.Lib.History

/-! A shape's stream against its table: the envelopes of a change turn the rows that the shape showed
before the change into the rows that it shows after it. -/
namespace ElectricCircuits

/-- What a consumer does with one envelope of a stream. -/
def foldEnvelope (F : String → Option Json) (e : Envelope) : String → Option Json :=
  fun k => if k = e.key then (if e.headers.operation = "delete" then none else e.value) else F k

/-- A stream, folded by key. -/
def foldStream (F : String → Option Json) (es : List Envelope) : String → Option Json :=
  es.foldl foldEnvelope F

@[simp] lemma foldStream_nil (F : String → Option Json) : foldStream F [] = F := rfl

lemma foldStream_append (F : String → Option Json) (es es' : List Envelope) :
    foldStream F (es ++ es') = foldStream (foldStream F es) es' := List.foldl_append

/-- Envelopes that are made from keys: the last word on a key is its own envelope. -/
lemma foldStream_filterMap (F : String → Option Json) (ks : List String)
    (env : String → Option Envelope) (henv : ∀ k, ∀ e ∈ env k, e.key = k) (k : String) :
    foldStream F (ks.filterMap env) k =
      if k ∈ ks then
        match env k with
        | some e => if e.headers.operation = "delete" then none else e.value
        | none => F k
      else F k := by
  induction ks generalizing F with
  | nil => rfl
  | cons k' ks ih =>
    cases he : env k' with
    | none =>
      rw [List.filterMap_cons_none he,ih]
      by_cases hk : k = k'
      · subst hk
        simp [he]
      · simp [hk]
    | some e =>
      have hkey := henv k' e he
      rw [List.filterMap_cons_some he,foldStream,List.foldl_cons,← foldStream,ih]
      by_cases hk : k = k'
      · subst hk
        simp [he,foldEnvelope,hkey]
      · simp [hk,foldEnvelope,hkey]

namespace Legs
variable {ts : TableSchema}

/-- Every key of a leg stands in the order. -/
def Ordered (l : Legs) : Prop := ∀ k, l.pos.get? k ≠ none ∨ k ∈ l.neg → k ∈ l.order

lemma ordered_add {l : Legs} (h : l.Ordered) (t : Row × ℤ) : (l.add ts t).Ordered := by
  intro k hk
  rw [add] at hk ⊢
  cases hpk : ts.keyString t.1 with
  | error e =>
    rw [hpk] at hk
    exact h k hk
  | ok pk =>
    rw [hpk] at hk
    dsimp only at hk ⊢
    by_cases hkey : k = pk
    · subst hkey
      split_ifs with hnew
      · simp
      · refine h k ?_
        by_contra hno
        rw [not_or,not_not] at hno
        exact hnew ⟨by simp [hno.1],hno.2⟩
    · have hold : l.pos.get? k ≠ none ∨ k ∈ l.neg := by
        refine hk.imp (fun hpos => ?_) fun hneg => ?_
        · split_ifs at hpos
          · simpa [AssocMap.get?_insert,Ne.symm hkey] using hpos
          · exact hpos
        · split_ifs at hneg
          · simpa [hkey] using hneg
          · exact hneg
      split_ifs
      · exact List.mem_append_left _ (h k hold)
      · exact h k hold

lemma ordered_foldl (out : Delta) : ∀ l : Legs, l.Ordered → (out.foldl (add ts) l).Ordered := by
  induction out with
  | nil => exact fun _ h => h
  | cons t out ih => exact fun l h => ih _ (ordered_add h t)

/-- The negative keys of a list of rows. -/
lemma mem_neg_foldl {out : Delta} (h : ∀ t ∈ out, ts.IsRow t.1) (k : String) :
    k ∈ (out.foldl (add ts) empty).neg ↔ ∃ t ∈ out, t.2 < 0 ∧ ts.name t.1 = k := by
  induction out using List.reverseRecOn with
  | nil => simp [empty]
  | append_singleton out t ih =>
    have ht := ts.keyString_eq (h t (by simp))
    rw [List.foldl_append,List.foldl_cons,List.foldl_nil,add,ht]
    have ih := ih fun t ht => h t (List.mem_append_left _ ht)
    simp only [List.mem_append,List.mem_singleton,or_and_right,exists_or,exists_eq_left,← ih]
    split_ifs with hneg
    · simp [hneg.1,eq_comm]
    · by_cases hlt : t.2 < 0
      · have hmem := not_not.mp fun hn => hneg ⟨hlt,hn⟩
        refine ⟨.inl,?_⟩
        rintro (hk | ⟨-,rfl⟩) <;> assumption
      · simp [hlt]

/-- The positive row of a key: the last one. -/
lemma get?_pos_foldl {out : Delta} (h : ∀ t ∈ out, ts.IsRow t.1) (k : String) :
    (out.foldl (add ts) empty).pos.get? k =
      (out.reverse.find? fun t => 0 < t.2 ∧ ts.name t.1 = k).map (·.1) := by
  induction out using List.reverseRecOn with
  | nil => rfl
  | append_singleton out t ih =>
    have ht := ts.keyString_eq (h t (by simp))
    have ih := ih fun t ht => h t (List.mem_append_left _ ht)
    rw [List.foldl_append,List.foldl_cons,List.foldl_nil,add,ht,List.reverse_append,
      List.reverse_singleton,List.singleton_append,List.find?_cons]
    by_cases hpos : 0 < t.2
    · by_cases hk : ts.name t.1 = k <;> simp [hpos,hk,AssocMap.get?_insert,ih]
    · simp [hpos,ih]

/-- The legs of an output of members alone. -/
lemma members (ts : TableSchema) (rows : List Row) (k : String) :
    (((rows.map (·,(1 : ℤ))).foldl (Legs.add ts) Legs.empty).pos.get? k =
      rows.reverse.find? fun r => (ts.keyString r).toOption == some k) ∧
    ((rows.map (·,(1 : ℤ))).foldl (Legs.add ts) Legs.empty).neg = [] := by
  induction rows using List.reverseRecOn with
  | nil => exact ⟨rfl,rfl⟩
  | append_singleton rows r ih =>
    rw [List.map_append,List.foldl_append,List.reverse_append,List.reverse_singleton,List.singleton_append,
      List.find?_cons,List.map_singleton,List.foldl_cons,List.foldl_nil,Legs.add]
    cases hkey : ts.keyString r with
    | error e => simpa [Except.toOption] using ih
    | ok pk =>
      have hlt : (0 : ℤ) < 1 := by decide
      have hpk : (Except.ok pk : Except String String).toOption = some pk := rfl
      simp only [hlt,if_true,hpk,Option.some_beq_some,AssocMap.get?_insert_eq,ih.2]
      refine ⟨?_,by simp⟩
      by_cases hk : pk = k
      · simp [hk]
      · rw [if_neg hk,ih.1,beq_false_of_ne hk]

/-- The keys of an output of members, each once. -/
lemma nodup_order_members (ts : TableSchema) (rows : List Row) :
    let l := (rows.map (·,(1 : ℤ))).foldl (add ts) empty
    l.order.Nodup ∧ ∀ k ∈ l.order, (l.pos.get? k).isSome = true := by
  induction rows using List.reverseRecOn with
  | nil => exact ⟨.nil,fun k hk => by cases hk⟩
  | append_singleton rows r ih =>
    have hneg := (members ts rows "").2
    rw [List.map_append,List.foldl_append,List.map_singleton,List.foldl_cons,List.foldl_nil,add]
    generalize (rows.map (·,(1 : ℤ))).foldl (add ts) empty = l at ih hneg ⊢
    obtain ⟨hnodup,hpos⟩ := ih
    cases hkey : ts.keyString r with
    | error e => exact ⟨hnodup,hpos⟩
    | ok pk =>
      dsimp only
      have hsome : ∀ k,(l.pos.get? k).isSome = true ∨ k = pk → ((l.pos.insert pk r).get? k).isSome = true := by
        intro k hk
        rw [AssocMap.get?_insert_eq]
        split_ifs with h
        · rfl
        · exact hk.resolve_right (Ne.symm h)
      simp only [zero_lt_one,if_true,hneg,List.not_mem_nil,not_false_eq_true,and_true]
      split_ifs with hnew
      · have hfresh : pk ∉ l.order := fun hk => by
          rw [Option.isNone_iff_eq_none] at hnew
          simpa [hnew] using hpos pk hk
        refine ⟨List.concat_eq_append ▸ hnodup.concat hfresh,?_⟩
        · intro k hk
          rcases List.mem_append.mp hk with hk | hk
          · exact hsome k (.inl (hpos k hk))
          · exact hsome k (.inr (List.mem_singleton.mp hk))
      · exact ⟨hnodup,fun k hk => hsome k (.inl (hpos k hk))⟩

end Legs

/-- What the envelopes of an output delta do: an upsert for each positive key, a delete for each other
negative one. -/
theorem foldStream_translateOutput (F : String → Option Json) (ts : TableSchema) (out : Delta)
    (txid lsn : Option String) (outCols : Option (List ℕ)) (k : String) :
    foldStream F (translateOutput ts out txid lsn outCols) k =
      match (out.foldl (Legs.add ts) Legs.empty).pos.get? k with
      | some row => some (ts.rowToJsonCols row outCols)
      | none => if k ∈ (out.foldl (Legs.add ts) Legs.empty).neg then none else F k := by
  have hordered : (out.foldl (Legs.add ts) Legs.empty).Ordered :=
    Legs.ordered_foldl out _ (by simp [Legs.Ordered,Legs.empty])
  rw [translateOutput]
  generalize out.foldl (Legs.add ts) Legs.empty = l at hordered ⊢
  have hdeletes : ∀ F, foldStream F ((l.order.filter fun pk => pk ∈ l.neg && (l.pos.get? pk).isNone).map
      fun pk => (⟨ts.table,pk,none,none,outputHeaders "delete" txid lsn⟩ : Envelope)) k =
      if k ∈ l.neg ∧ l.pos.get? k = none then none else F k := by
    intro F
    rw [← List.filterMap_eq_map,foldStream_filterMap]
    · have hmem := hordered k
      by_cases hk : k ∈ l.neg ∧ l.pos.get? k = none
      · simp [hk,hmem (.inr hk.1),outputHeaders]
      · rw [if_neg hk,if_neg]
        simpa using fun _ hneg hpos => hk ⟨hneg,hpos⟩
    · rintro k e he
      obtain rfl := Option.some.inj he
      rfl
  rw [foldStream_append,hdeletes,foldStream_filterMap]
  · cases hpos : l.pos.get? k with
    | some row => simp [hordered k (.inl (by simp [hpos])),outputHeaders]
    | none => simp
  · intro k e he
    obtain ⟨row,-,rfl⟩ := Option.map_eq_some_iff.mp he
    rfl

/-- The upsert of a row under its key. -/
def upsertOf (ts : TableSchema) (txid lsn : Option String) (outCols : Option (List ℕ)) (row : Row) : Envelope :=
  absoluteEnvelope ts ((ts.keyString row).toOption.getD "") (some row) txid lsn outCols

/-- The output of members: an upsert for some of the rows, none taken twice. -/
lemma translateOutput_members (ts : TableSchema) (rows : List Row) (txid lsn : Option String)
    (outCols : Option (List ℕ)) : ∃ kept : List Row, kept.Subperm rows ∧
      translateOutput ts (rows.map (·,1)) txid lsn outCols = kept.map (upsertOf ts txid lsn outCols) := by
  obtain ⟨hnodup,-⟩ := Legs.nodup_order_members ts rows
  have hlegs := Legs.members ts rows
  rw [translateOutput]
  generalize (rows.map (·,(1 : ℤ))).foldl (Legs.add ts) Legs.empty = l at hnodup hlegs ⊢
  have hrow : ∀ k row,l.pos.get? k = some row → row ∈ rows ∧ ts.keyString row = .ok k := by
    intro k row h
    rw [(hlegs k).1] at h
    have hkey := List.find?_some h
    refine ⟨List.mem_reverse.mp (List.mem_of_find?_eq_some h),?_⟩
    cases hk : ts.keyString row <;> simp_all [Except.toOption]
  refine ⟨l.order.filterMap l.pos.get?,?_,?_⟩
  · refine List.subperm_of_subset (hnodup.filterMap fun k k' row hk hk' => ?_) fun row hrow' => ?_
    · have heq := (hrow k row hk).2.symm.trans (hrow k' row hk').2
      exact Except.ok.inj heq
    · obtain ⟨k,-,hk⟩ := List.mem_filterMap.mp hrow'
      exact (hrow k row hk).1
  · have hneg := (hlegs "").2
    rw [hneg]
    simp only [List.not_mem_nil,decide_false,Bool.false_and,List.filter_false,List.map_nil,List.append_nil,
      List.map_filterMap]
    refine List.filterMap_congr fun k _ => ?_
    cases hk : l.pos.get? k with
    | none => rfl
    | some row =>
      rw [Option.map_some,Option.map_some,upsertOf,(hrow k row hk).2]
      rfl

/-- A delete is emitted for a negative key without a positive row. -/
lemma delete_mem_translateOutput {ts : TableSchema} {out : Delta} {txid lsn : Option String}
    {outCols : Option (List ℕ)} {e : Envelope} (he : e ∈ translateOutput ts out txid lsn outCols)
    (hop : e.headers.operation = "delete") :
    e.key ∈ (out.foldl (Legs.add ts) Legs.empty).neg ∧
      (out.foldl (Legs.add ts) Legs.empty).pos.get? e.key = none := by
  rw [translateOutput] at he
  rcases List.mem_append.mp he with he | he
  · obtain ⟨pk,-,he⟩ := List.mem_filterMap.mp he
    obtain ⟨row,-,rfl⟩ := Option.map_eq_some_iff.mp he
    exact absurd hop (by simp [outputHeaders])
  · obtain ⟨pk,hpk,rfl⟩ := List.mem_map.mp he
    simpa using (List.mem_filter.mp hpk).2

/-- The delta of two images. -/
def imageDelta (before new : Option Row) : Delta :=
  match before,new with
  | some o,some n => if o == n then [] else [(o,-1),(n,1)]
  | none,some n => [(n,1)]
  | some o,none => [(o,-1)]
  | none,none => []

lemma mem_imageDelta {before new : Option Row} {t : Row × ℤ} (h : t ∈ imageDelta before new) :
    t.1 ∈ before ∧ t.2 = -1 ∨ t.1 ∈ new ∧ t.2 = 1 := by
  cases before with
  | none => cases new <;> simp_all [imageDelta]
  | some o =>
    cases new with
    | none => simp_all [imageDelta]
    | some n =>
      rw [imageDelta] at h
      split_ifs at h
      · cases h
      · simp only [List.mem_cons,List.not_mem_nil,or_false] at h
        rcases h with rfl | rfl
        · exact .inl ⟨rfl,rfl⟩
        · exact .inr ⟨rfl,rfl⟩

/-- What an envelope carries of a change: its new image, and the image before it if there is one. -/
structure Carries (ts : TableSchema) (env : Envelope) (before new : Option Row) : Prop where
  asserts : ∀ n ∈ new, env.headers.operation ∈ ["insert","update","upsert"] ∧
    ∃ fields, env.value = some (.object fields) ∧ ts.rowFromJson (.object fields) = .ok n
  deletes : new = none → env.headers.operation = "delete"
  image : ∀ o ∈ before, ∃ fields, env.old = some (.object fields) ∧
    ts.rowFromJson (.object fields) = .ok o
  bare : before = none → env.old = none

lemma Carries.applyEnvelope {ts : TableSchema} {env : Envelope} {before new : Option Row}
    (h : Carries ts env before new) :
    applyEnvelope ts env = .ok (imageDelta before new,env.headers.txid,env.headers.lsn) := by
  cases new with
  | none =>
    have hop := h.deletes rfl
    cases before with
    | none =>
      simp only [ElectricCircuits.applyEnvelope,hop,h.bare rfl,imageDelta]
      rfl
    | some o =>
      obtain ⟨fields,hold,ho⟩ := h.image o rfl
      simp only [ElectricCircuits.applyEnvelope,hop,hold,ho,imageDelta]
      rfl
  | some n =>
    obtain ⟨hop,fields,hvalue,hn⟩ := h.asserts n rfl
    cases before with
    | none =>
      simp only [ElectricCircuits.applyEnvelope,hop,hvalue,hn,h.bare rfl,imageDelta]
      rfl
    | some o =>
      obtain ⟨fields',hold,ho⟩ := h.image o rfl
      simp only [ElectricCircuits.applyEnvelope,hop,hvalue,hn,hold,ho,imageDelta,if_true]
      change Except.map _ (if (o == n) = true then .ok [] else .ok [(o,-1),(n,1)]) = _
      split_ifs <;> rfl

section
variable {ts : TableSchema} {pred : CompiledPredicate} {before new : Option Row}

/-- What a change does to a stream: the new image stands for its key if it matches, and the old
image's key goes if that matched. -/
theorem foldStream_imageDelta (hbefore : ∀ o ∈ before, ts.IsRow o) (hnew : ∀ n ∈ new, ts.IsRow n)
    (htold : ∀ o ∈ before, ∀ n ∈ new, (o == n) = false) (F : String → Option Json)
    (txid lsn : Option String) (outCols : Option (List ℕ)) (k : String) :
    foldStream F (translateOutput ts (evalStandalone pred (imageDelta before new)) txid lsn outCols) k =
      match new.filter fun n => ts.name n = k ∧ pred.matchesRow n with
      | some n => some (ts.rowToJsonCols n outCols)
      | none => if ∃ o ∈ before, ts.name o = k ∧ pred.matchesRow o = true then none else F k := by
  have hdelta : imageDelta before new =
      (before.map (·,-1)).toList ++ (new.map (·,1)).toList := by
    cases before <;> cases new <;> simp_all [imageDelta]
  have hmem : ∀ r w, (r,w) ∈ evalStandalone pred (imageDelta before new) ↔
      (r ∈ before ∧ w = -1 ∨ r ∈ new ∧ w = 1) ∧ pred.matchesRow r = true := by
    intro r w
    rw [evalStandalone,List.mem_filter,hdelta]
    cases before <;> cases new <;> simp [@eq_comm Row r]
  have hrows : ∀ t ∈ evalStandalone pred (imageDelta before new), ts.IsRow t.1 := by
    rintro ⟨r,w⟩ ht
    obtain ⟨⟨hr,-⟩ | ⟨hr,-⟩,-⟩ := (hmem r w).mp ht
    · exact hbefore r hr
    · exact hnew r hr
  have hneg : (∃ t ∈ evalStandalone pred (imageDelta before new), t.2 < 0 ∧ ts.name t.1 = k) ↔
      ∃ o ∈ before, ts.name o = k ∧ pred.matchesRow o = true := by
    constructor
    · rintro ⟨⟨r,w⟩,ht,hw,hk⟩
      obtain ⟨⟨hr,-⟩ | ⟨-,rfl⟩,hm⟩ := (hmem r w).mp ht
      · exact ⟨r,hr,hk,hm⟩
      · exact absurd hw (show ¬(1 : ℤ) < 0 by decide)
    · rintro ⟨o,ho,hk,hm⟩
      exact ⟨(o,-1),(hmem o (-1)).mpr ⟨.inl ⟨ho,rfl⟩,hm⟩,show (-1 : ℤ) < 0 by decide,hk⟩
  have hpos : ((evalStandalone pred (imageDelta before new)).reverse.find?
      fun t => 0 < t.2 ∧ ts.name t.1 = k).map (·.1) =
      new.filter fun n => ts.name n = k ∧ pred.matchesRow n := by
    have hnone : ((before.map (·,(-1 : ℤ))).toList.filter fun t => pred.matchesRow t.1).reverse.find?
        (fun t => decide (0 < t.2 ∧ ts.name t.1 = k)) = none := by
      refine List.find?_eq_none.mpr ?_
      cases before <;> simp
    rw [hdelta,evalStandalone,List.filter_append,List.reverse_append,List.find?_append,hnone,
      Option.or_none]
    cases new with
    | none => rfl
    | some n =>
      cases hm : pred.matchesRow n <;> by_cases hk : ts.name n = k <;>
        simp [hm,hk,Option.filter_some]
  rw [foldStream_translateOutput,Legs.get?_pos_foldl hrows,hpos]
  simp only [Legs.mem_neg_foldl hrows,hneg]

end
/-- What one plain shape is sent for one change. -/
def StandaloneShape.emits (s : StandaloneShape) (ts : TableSchema) (libraryMode : Bool)
    (env : Envelope) : List Envelope :=
  match applyEnvelope ts env with
  | .error _ => []
  | .ok (delta,txid,lsn) =>
    let absolute := libraryMode && needsAbsoluteEmission env
    if (delta.isEmpty && !absolute) || Stamp.skips ⟨txid,lsn⟩ s.gate then []
    else if absolute then
      let held := (TableExec.rowNow delta).filter fun r => s.pred.matchesRow r
      [absoluteEnvelope ts env.key held txid lsn s.outCols]
    else translateOutput ts (evalStandalone s.pred delta) txid lsn s.outCols

/-- What a shape shows of a row: its projection, if it matches. -/
def StandaloneShape.view (s : StandaloneShape) (ts : TableSchema) (r : Row) : Option Json :=
  if s.pred.matchesRow r then some (ts.rowToJsonCols r s.outCols) else none

/-- How a change reaches the executor: with the row before it, or else as the word on one key, which
both its images have. Images that row equality does not tell apart are one image. -/
inductive Delivered (ts : TableSchema) (libraryMode : Bool) (env : Envelope) (c : RowChange Row) : Prop
    where
  | image (h : Carries ts env c.old c.new)
      (hmode : (libraryMode && needsAbsoluteEmission env) = false)
      (htold : ∀ o ∈ c.old, ∀ n ∈ c.new, (o == n) = true → o = n)
  | bare (h : Carries ts env none c.new) (hmode : (libraryMode && needsAbsoluteEmission env) = true)
      (hkey : ∀ r, r ∈ c.old ∨ r ∈ c.new → ts.name r = env.key)
      (hrow : ∃ r, r ∈ c.old ∨ r ∈ c.new)

/-- The table that the executor speaks for: its rows are rows of the schema, with distinct keys. -/
structure TableSchema.IsTable (ts : TableSchema) (t : Finset Row) : Prop where
  rows : ∀ r ∈ t, ts.IsRow r
  keyed : Set.InjOn ts.identity t

section
variable {ts : TableSchema} {s : StandaloneShape} {libraryMode : Bool} {env : Envelope}
  {c : RowChange Row} {t : Finset Row} {F : String → Option Json}

lemma TableSchema.IsTable.name_inj (ht : ts.IsTable t) {r r' : Row} (hr : r ∈ t) (hr' : r' ∈ t)
    (h : ts.name r = ts.name r') : r = r' :=
  ht.keyed hr hr' (TableSchema.name_inj (ht.rows r hr) (ht.rows r' hr') h)

lemma TableSchema.IsTable.apply (ht : ts.IsTable t) (hfit : c.Fits ts.identity t)
    (hnew : ∀ n ∈ c.new, ts.IsRow n) : ts.IsTable (c.apply t) where
  rows r hr := by
    rcases RowChange.mem_apply.mp hr with ⟨hr,-⟩ | hr
    · exact ht.rows r hr
    · exact hnew r hr
  keyed := hfit.injOn ht.keyed

lemma apply_same (hfit : c.Fits ts.identity t) {r : Row} (ho : r ∈ c.old) (hn : r ∈ c.new) :
    c.apply t = t := by
  ext x
  rw [RowChange.mem_apply]
  constructor
  · rintro (⟨hx,-⟩ | hx)
    · exact hx
    · obtain rfl := Option.mem_unique hx hn
      exact hfit.held x ho
  · intro hx
    by_cases hxo : x ∈ c.old
    · obtain rfl := Option.mem_unique hxo ho
      exact .inr hn
    · exact .inl ⟨hx,hxo⟩

/-- The difference emission, on images that differ. -/
lemma emits_image (h : Carries ts env c.old c.new)
    (hmode : (libraryMode && needsAbsoluteEmission env) = false)
    (hskip : Stamp.skips ⟨env.headers.txid,env.headers.lsn⟩ s.gate = false) :
    s.emits ts libraryMode env = translateOutput ts (evalStandalone s.pred (imageDelta c.old c.new))
      env.headers.txid env.headers.lsn s.outCols := by
  rw [StandaloneShape.emits,h.applyEnvelope]
  simp only [hmode,hskip,Bool.not_false,Bool.and_true,Bool.or_false,Bool.false_eq_true,if_false]
  split_ifs with hnil
  · rw [List.isEmpty_iff.mp hnil]
    rfl
  · rfl

/-- The absolute emission. -/
lemma emits_bare (h : Carries ts env none c.new)
    (hmode : (libraryMode && needsAbsoluteEmission env) = true)
    (hskip : Stamp.skips ⟨env.headers.txid,env.headers.lsn⟩ s.gate = false) :
    s.emits ts libraryMode env = [absoluteEnvelope ts env.key (c.new.filter fun r => s.pred.matchesRow r)
      env.headers.txid env.headers.lsn s.outCols] := by
  have hnow : TableExec.rowNow (imageDelta none c.new) = c.new := by
    cases c.new <;> simp [TableExec.rowNow,imageDelta]
  rw [StandaloneShape.emits,h.applyEnvelope]
  simp [hmode,hskip,hnow]

@[simp] lemma absoluteEnvelope_key (ts : TableSchema) (key : String) (row : Option Row)
    (txid lsn : Option String) (outCols : Option (List ℕ)) :
    (absoluteEnvelope ts key row txid lsn outCols).key = key := by cases row <;> rfl

lemma foldStream_absolute (F : String → Option Json) (ts : TableSchema) (key : String)
    (row : Option Row) (txid lsn : Option String) (outCols : Option (List ℕ)) (k : String) :
    foldStream F [absoluteEnvelope ts key row txid lsn outCols] k =
      if k = key then row.map (ts.rowToJsonCols · outCols) else F k := by
  cases row <;> simp [foldStream,foldEnvelope,absoluteEnvelope,outputHeaders]

/-- One change: what the stream showed of the table before it, the stream shows of the table after. -/
theorem Delivered.shows (hd : Delivered ts libraryMode env c) (ht : ts.IsTable t)
    (hfit : c.Fits ts.identity t) (hnew : ∀ n ∈ c.new, ts.IsRow n)
    (hskip : Stamp.skips ⟨env.headers.txid,env.headers.lsn⟩ s.gate = false)
    (hF : Shows ts.name (s.view ts) t F) :
    Shows ts.name (s.view ts) (c.apply t) (foldStream F (s.emits ts libraryMode env)) := by
  have hold : ∀ o ∈ c.old, ts.IsRow o := fun o ho => ht.rows o (hfit.held o ho)
  have ht' := ht.apply hfit hnew
  have hafter : ∀ r ∈ c.apply t, ∀ n ∈ c.new, ts.name r = ts.name n → r = n :=
    fun r hr n hn => ht'.name_inj hr (RowChange.mem_apply.mpr (.inr hn))
  have hbefore : ∀ r ∈ t, ∀ o ∈ c.old, ts.name r = ts.name o → r = o :=
    fun r hr o ho => ht.name_inj hr (hfit.held o ho)
  cases hd with
  | image h hmode htold =>
    rw [emits_image h hmode hskip]
    by_cases hsame : ∃ o ∈ c.old, ∃ n ∈ c.new, (o == n) = true
    · obtain ⟨o,ho,n,hn,heq⟩ := hsame
      obtain rfl := htold o ho n hn heq
      have hnil : imageDelta c.old c.new = [] := by
        rw [Option.mem_def.mp ho,Option.mem_def.mp hn,imageDelta,if_pos heq]
      rw [apply_same hfit ho hn,hnil]
      exact hF
    · have hdiffer : ∀ o ∈ c.old, ∀ n ∈ c.new, (o == n) = false := fun o ho n hn =>
        Bool.eq_false_iff.mpr fun heq => hsame ⟨o,ho,n,hn,heq⟩
      have hfold := fun k => @foldStream_imageDelta ts s.pred c.old c.new hold hnew hdiffer F
        env.headers.txid env.headers.lsn s.outCols k
      have hother : ∀ k, (∀ n ∈ c.new, ts.name n ≠ k) →
          (c.new.filter fun n => ts.name n = k ∧ s.pred.matchesRow n) = none := by
        intro k hk
        rw [Option.filter_eq_none_iff]
        exact fun n hn => by simp [hk n hn]
      refine hF.apply hafter hbefore ?_ ?_ ?_
      · intro n hn
        rw [hfold,StandaloneShape.view,Option.mem_def.mp hn]
        cases hm : s.pred.matchesRow n with
        | true => simp [hm,Option.filter_some]
        | false =>
          -- a row that stood under the name was the old image
          simp only [hm,Option.filter_some,Bool.false_eq_true,and_false,decide_false,if_false,
            ite_eq_left_iff,not_exists,not_and]
          refine fun hno => Option.eq_none_iff_forall_ne_some.mpr fun b hb => ?_
          obtain ⟨r,hr,hname,hview⟩ := (hF _ b).mp hb
          have hmatch : s.pred.matchesRow r = true := by
            by_contra hf
            simp [StandaloneShape.view,hf] at hview
          by_cases hro : r ∈ c.old
          · exact hno r hro hname hmatch
          · obtain rfl := hafter r (RowChange.mem_apply.mpr (.inl ⟨hr,hro⟩)) n hn hname
            simp [hm] at hmatch
      · intro o ho hne
        rw [hfold,hother _ hne]
        have hview := hF.of_mem (fun r hr r' hr' => ht.name_inj hr hr') (hfit.held o ho)
        by_cases hm : s.pred.matchesRow o = true
        · exact if_pos ⟨o,ho,rfl,hm⟩
        · simp [hview,StandaloneShape.view,hm]
      · intro k hkn hko
        rw [hfold,hother k hkn]
        exact if_neg fun ⟨o,ho,hk,_⟩ => hko o ho hk
  | bare h hmode hkey hrow =>
    rw [emits_bare h hmode hskip]
    refine hF.apply hafter hbefore ?_ ?_ ?_
    · intro n hn
      rw [foldStream_absolute,if_pos (hkey n (.inr hn)),Option.mem_def.mp hn,StandaloneShape.view]
      cases hm : s.pred.matchesRow n <;> simp [hm,Option.filter_some]
    · intro o ho hne
      have hnone : c.new = none := by
        cases hn : c.new with
        | none => rfl
        | some n => exact absurd ((hkey n (.inr hn)).trans (hkey o (.inl ho)).symm) (hne n hn)
      rw [foldStream_absolute,if_pos (hkey o (.inl ho)),hnone]
      rfl
    · intro k hkn hko
      obtain ⟨r,hr⟩ := hrow
      rw [foldStream_absolute,if_neg]
      rintro rfl
      rcases hr with hr | hr
      · exact hko r hr (hkey r (.inl hr))
      · exact hkn r hr (hkey r (.inr hr))

/-- A delete names a key that the stream holds, or, stated outright, the key of the change. -/
lemma Delivered.delete_held (hd : Delivered ts libraryMode env c) (ht : ts.IsTable t)
    (hfit : c.Fits ts.identity t) (hnew : ∀ n ∈ c.new, ts.IsRow n)
    (hskip : Stamp.skips ⟨env.headers.txid,env.headers.lsn⟩ s.gate = false)
    (hF : Shows ts.name (s.view ts) t F) {d : Envelope} (hmem : d ∈ s.emits ts libraryMode env)
    (hop : d.headers.operation = "delete") :
    F d.key ≠ none ∨ (libraryMode && needsAbsoluteEmission env) = true ∧ d.key = env.key := by
  cases hd with
  | image h hmode htold =>
    left
    rw [emits_image h hmode hskip] at hmem
    have hneg := (delete_mem_translateOutput hmem hop).1
    have hrows : ∀ t ∈ evalStandalone s.pred (imageDelta c.old c.new), ts.IsRow t.1 := by
      intro x hx
      rcases (mem_imageDelta (List.mem_filter.mp hx).1) with ⟨hr,-⟩ | ⟨hr,-⟩
      · exact ht.rows _ (hfit.held _ hr)
      · exact hnew _ hr
    obtain ⟨x,hx,hw,hk⟩ := (Legs.mem_neg_foldl hrows d.key).mp hneg
    obtain ⟨hx,hm⟩ := List.mem_filter.mp hx
    rcases mem_imageDelta hx with ⟨hr,-⟩ | ⟨-,hone⟩
    · rw [← hk,hF.of_mem (fun r hr r' hr' => ht.name_inj hr hr') (hfit.held _ hr),
        StandaloneShape.view,if_pos hm]
      simp
    · rw [hone] at hw
      exact absurd hw (by decide)
  | bare h hmode hkey hrow =>
    right
    rw [emits_bare h hmode hskip,List.mem_singleton] at hmem
    exact ⟨hmode,hmem ▸ absoluteEnvelope_key ..⟩

end

/-- The changes of a run, each with the envelope that brings it. -/
structure DeliveredRun (ts : TableSchema) (gate : SnapshotGate) (libraryMode : Bool) (t : Finset Row)
    (run : List (Envelope × RowChange Row)) : Prop where
  table : ts.IsTable t
  runs : History.Runs ts.identity Prod.snd t run
  rows : ∀ e ∈ run, ∀ n ∈ e.2.new, ts.IsRow n
  delivered : ∀ e ∈ run, Delivered ts libraryMode e.1 e.2
  unseen : ∀ e ∈ run, Stamp.skips ⟨e.1.headers.txid,e.1.headers.lsn⟩ gate = false

lemma DeliveredRun.tail {ts : TableSchema} {gate : SnapshotGate} {libraryMode : Bool} {t : Finset Row}
    {e : Envelope × RowChange Row} {run : List (Envelope × RowChange Row)}
    (h : DeliveredRun ts gate libraryMode t (e :: run)) :
    DeliveredRun ts gate libraryMode (e.2.apply t) run where
  table := h.table.apply h.runs.1 (h.rows e List.mem_cons_self)
  runs := h.runs.2
  rows e' he' := h.rows e' (List.mem_cons_of_mem _ he')
  delivered e' he' := h.delivered e' (List.mem_cons_of_mem _ he')
  unseen e' he' := h.unseen e' (List.mem_cons_of_mem _ he')

/-- The stream of a shape shows the rows of the table that match, whatever the run of changes; and its
deletes name keys that it holds, those stated outright the key of their change. -/
theorem stream_shows_table {ts : TableSchema} {s : StandaloneShape} {libraryMode : Bool}
    {t : Finset Row} {run : List (Envelope × RowChange Row)} {F : String → Option Json}
    (h : DeliveredRun ts s.gate libraryMode t run) (hF : Shows ts.name (s.view ts) t F) :
    Shows ts.name (s.view ts) (History.after Prod.snd t run)
        (foldStream F (run.flatMap fun e => s.emits ts libraryMode e.1)) ∧
      ∀ before e later, run = before ++ e :: later → ∀ d ∈ s.emits ts libraryMode e.1,
        d.headers.operation = "delete" →
          foldStream F (before.flatMap fun e => s.emits ts libraryMode e.1) d.key ≠ none ∨
            (libraryMode && needsAbsoluteEmission e.1) = true ∧ d.key = e.1.key := by
  induction run generalizing t F with
  | nil => exact ⟨hF,by simp⟩
  | cons e run ih =>
    have hd := h.delivered e List.mem_cons_self
    have hnew := h.rows e List.mem_cons_self
    have hskip := h.unseen e List.mem_cons_self
    obtain ⟨hshows,hdeletes⟩ := ih h.tail (hd.shows h.table h.runs.1 hnew hskip hF)
    rw [List.flatMap_cons,foldStream_append]
    refine ⟨hshows,?_⟩
    intro before e' later heq d hmem hop
    cases before with
    | nil =>
      obtain ⟨rfl,rfl⟩ := List.cons.inj heq
      exact hd.delete_held h.table h.runs.1 hnew hskip hF hmem hop
    | cons x before =>
      obtain ⟨rfl,rfl⟩ := List.cons.inj heq
      rw [List.flatMap_cons,foldStream_append]
      exact hdeletes before e' later rfl d hmem hop

lemma forall_mem_some {α : Type*} {P : α → Prop} {a : α} (h : P a) : ∀ x ∈ some a, P x :=
  fun _ hx => Option.some.inj hx ▸ h

/-- Rows with a level above three, of the sample table. -/
def StandaloneShape.sample : StandaloneShape := ⟨.cmp 1 .gt (.int 3),"shape/s1",.passthrough,none⟩

def sampleRow (id level : ℤ) : Row := ⟨[.int id,.int level]⟩

def sampleObject (id level : ℤ) : Json := .object [("id",.int id),("level",.int level)]

def sampleEnvelope (operation key : String) (value old : Option Json) : Envelope :=
  ⟨"issues",key,value,old,⟨operation,none,none,none,none⟩⟩

lemma sample_isRow (id level : ℤ) : TableSchema.sample.IsRow (sampleRow id level) := by
  refine ⟨rfl,fun i hi c hc => ?_⟩
  obtain rfl : i = 0 := by simpa [TableSchema.sample] using hi
  obtain rfl : ("id",ColumnType.int) = c := by simpa [TableSchema.sample] using hc
  trivial

lemma sample_isTable (id level : ℤ) : TableSchema.sample.IsTable {sampleRow id level} where
  rows r hr := by
    obtain rfl := Finset.mem_singleton.mp hr
    exact sample_isRow id level
  keyed := by simp

lemma sample_shows (id level : ℤ) :
    Shows TableSchema.sample.name (StandaloneShape.sample.view .sample) {sampleRow id level}
      fun k => if k = TableSchema.sample.name (sampleRow id level) then
        StandaloneShape.sample.view .sample (sampleRow id level) else none := by
  intro k b
  by_cases hk : k = TableSchema.sample.name (sampleRow id level)
  · simp [hk]
  · simp [hk,Ne.symm hk]

/-- Stated outright, an update that moves the key leaves the row under the key it had; and a row that
never matched is deleted under a key that the stream never held. -/
theorem sample_absolute_misses :
    (let t : Finset Row := {sampleRow 1 5}
      let F : String → Option Json := fun k => if k = "1" then some (sampleObject 1 5) else none
      let c : RowChange Row := ⟨some (sampleRow 1 5),some (sampleRow 2 5)⟩
      let env := sampleEnvelope "update" "2" (some (sampleObject 2 5)) none
      TableSchema.sample.IsTable t ∧ c.Fits TableSchema.sample.identity t ∧
        Carries .sample env none c.new ∧ needsAbsoluteEmission env = true ∧
        Shows TableSchema.sample.name (StandaloneShape.sample.view .sample) t F ∧
        ¬Shows TableSchema.sample.name (StandaloneShape.sample.view .sample) (c.apply t)
          (foldStream F (StandaloneShape.sample.emits .sample true env))) ∧
    (let t : Finset Row := {sampleRow 1 2}
      let F : String → Option Json := fun _ => none
      let env := sampleEnvelope "delete" "1" none none
      Shows TableSchema.sample.name (StandaloneShape.sample.view .sample) t F ∧
        (StandaloneShape.sample.emits .sample true env).map (fun e => (e.key,e.headers.operation)) =
          [("1","delete")] ∧ F "1" = none) := by
  refine ⟨⟨sample_isTable 1 5,⟨?_,?_⟩,⟨?_,nofun,nofun,fun _ => rfl⟩,rfl,sample_shows 1 5,?_⟩,
    ?_,by decide +kernel,rfl⟩
  · rintro o ho
    obtain rfl := Option.some.inj ho
    exact Finset.mem_singleton_self _
  · rintro n hn r hr -
    obtain rfl := Finset.mem_singleton.mp hr
    rfl
  · rintro n hn
    obtain rfl := Option.some.inj hn
    exact ⟨by decide,_,rfl,rfl⟩
  · intro h
    obtain ⟨r,hr,hname,-⟩ := (h "1" (sampleObject 1 5)).mp rfl
    rcases RowChange.mem_apply.mp hr with ⟨hr,hold⟩ | hr
    · exact hold (by rw [Finset.mem_singleton.mp hr]; rfl)
    · obtain rfl := Option.some.inj hr
      exact absurd hname (by decide +kernel)
  · have hnone : StandaloneShape.sample.view .sample (sampleRow 1 2) = none := rfl
    simpa [hnone] using sample_shows 1 2

/-- An insert, an update that moves the key, an update stated outright and a delete. -/
theorem sample_stream_shows_table :
    let t : Finset Row := {sampleRow 1 5}
    let run : List (Envelope × RowChange Row) :=
      [(sampleEnvelope "insert" "2" (some (sampleObject 2 7)) none,⟨none,some (sampleRow 2 7)⟩),
       (sampleEnvelope "update" "3" (some (sampleObject 3 5)) (some (sampleObject 1 5)),
        ⟨some (sampleRow 1 5),some (sampleRow 3 5)⟩),
       (sampleEnvelope "update" "2" (some (sampleObject 2 1)) none,
        ⟨some (sampleRow 2 7),some (sampleRow 2 1)⟩),
       (sampleEnvelope "delete" "3" none (some (sampleObject 3 5)),⟨some (sampleRow 3 5),none⟩)]
    let F : String → Option Json := fun k => if k = "1" then some (sampleObject 1 5) else none
    History.after Prod.snd t run = {sampleRow 2 1} ∧
      Shows TableSchema.sample.name (StandaloneShape.sample.view .sample) {sampleRow 2 1}
        (foldStream F (run.flatMap fun e => StandaloneShape.sample.emits .sample true e.1)) := by
  intro t run F
  have hafter : History.after Prod.snd t run = {sampleRow 2 1} := by decide +kernel
  refine ⟨hafter,?_⟩
  rw [← hafter]
  refine (stream_shows_table ⟨sample_isTable 1 5,?_,?_,?_,?_⟩ (sample_shows 1 5)).1
  · decide +kernel
  · intro e _ n hn
    have hrow : ∃ id level, n = sampleRow id level := by
      simp only [run,List.mem_cons,List.not_mem_nil,or_false] at *
      aesop
    obtain ⟨id,level,rfl⟩ := hrow
    exact sample_isRow id level
  · intro e he
    simp only [run,List.mem_cons,List.not_mem_nil,or_false] at he
    rcases he with rfl | rfl | rfl | rfl
    · refine .image ⟨?_,nofun,nofun,fun _ => rfl⟩ rfl nofun
      exact forall_mem_some ⟨by decide,_,rfl,rfl⟩
    · refine .image ⟨?_,nofun,?_,nofun⟩ rfl ?_
      · exact forall_mem_some ⟨by decide,_,rfl,rfl⟩
      · exact forall_mem_some ⟨_,rfl,rfl⟩
      · decide +kernel
    · refine .bare ⟨?_,nofun,nofun,fun _ => rfl⟩ rfl ?_ ⟨_,.inl rfl⟩
      · exact forall_mem_some ⟨by decide,_,rfl,rfl⟩
      · rintro r (hr | hr) <;> obtain rfl := Option.some.inj hr <;> decide +kernel
    · exact .image ⟨nofun,fun _ => rfl,forall_mem_some ⟨_,rfl,rfl⟩,nofun⟩ rfl nofun
  · decide +kernel

def Live.streamPath : Live → String
  | .plain s => s.streamPath
  | .aggregate a => a.streamPath

/-- A stream that one live shape writes to. -/
def Registry.Owns (R : Registry) (sid : String) (path : String) : Prop :=
  ∀ sid' l, R.live.get? sid' = some l → l.streamPath = path → sid' = sid

section
variable {R : Registry} {sid : String} {s : StandaloneShape}

/-- A scan appends to a plain shape's stream what the shape is sent. -/
lemma filter_plainOutput (hl : R.live.get? sid = some (.plain s)) (hown : R.Owns sid s.streamPath)
    (ts : TableSchema) (key : String) (delta : Delta) (stamp : Stamp) (absolute : Bool) :
    (R.plainOutput ts key delta stamp absolute).filter (·.1 == s.streamPath) =
      if stamp.skips s.gate then []
      else [(s.streamPath,
        if absolute then [absoluteEnvelope ts key ((TableExec.rowNow delta).filter fun r =>
          s.pred.matchesRow r) stamp.txid stamp.lsn s.outCols]
        else translateOutput ts (evalStandalone s.pred delta) stamp.txid stamp.lsn s.outCols)] := by
  rw [Registry.plainOutput,AssocMap.filter_filterMap _ _ _ sid,hl,Option.bind_some]
  · cases hs : stamp.skips s.gate <;> cases absolute <;> simp [hs,Option.filter_some]
  · rintro ⟨sid',l⟩ he c hc hpath
    cases l with
    | aggregate a => cases hc
    | plain s' =>
      refine hown sid' _ ((AssocMap.mem_entries _ _ _).mp he) ?_
      simp only [Option.mem_def] at hc
      split_ifs at hc
      all_goals
        obtain rfl := Option.some.inj hc
        exact eq_of_beq hpath

/-- No aggregate writes to a plain shape's stream. -/
lemma filter_foldAggregates (hl : R.live.get? sid = some (.plain s)) (hown : R.Owns sid s.streamPath)
    (ts : TableSchema) (delta : Delta) (stamp : Stamp) :
    (R.foldAggregates ts delta stamp).2.filter (·.1 == s.streamPath) = [] := by
  rw [Registry.foldAggregates,AssocMap.filter_filterMap _ _ _ sid,hl,Option.bind_some]
  · rfl
  · rintro ⟨sid',l⟩ he c hc hpath
    cases l with
    | plain s' => cases hc
    | aggregate a =>
      refine hown sid' _ ((AssocMap.mem_entries _ _ _).mp he) ?_
      simp only [Option.mem_def] at hc
      split_ifs at hc
      obtain ⟨env,-,rfl⟩ := Option.map_eq_some_iff.mp hc
      exact eq_of_beq hpath

/-- What an executor appends to the stream of a live plain shape is what the shape is sent. -/
theorem TableExec.Reachable.staged_emits {T T' : TableExec} (h : TableExec.Reachable T R)
    (hl : R.live.get? sid = some (.plain s)) (hown : R.Owns sid s.streamPath) {env : Envelope}
    {libraryMode traced : Bool} {registry : Except String Unit} {staged : Staged}
    (hok : T.processEnvelope env libraryMode traced registry = .ok (T',staged)) :
    (staged.filter (·.1 == s.streamPath)).flatMap (·.2) = s.emits T.ts libraryMode env := by
  have hsame := h.refines.processEnvelope env libraryMode traced registry
  rw [hok] at hsame
  obtain ⟨R',scanned,hscan,hperm⟩ : ∃ R' scanned, R.processEnvelope T.ts env libraryMode registry =
      .ok (R',scanned) ∧ staged.appends.Perm scanned.appends := by
    generalize hR : R.processEnvelope T.ts env libraryMode registry = result at hsame
    cases hsame with
    | appended hperm _ => exact ⟨_,_,rfl,hperm⟩
  have hflat : ∀ l : Staged, (l.filter (·.1 == s.streamPath)).flatMap (·.2) =
      (l.appends.filter (·.1 == s.streamPath)).flatMap (·.2) := by
    intro l
    induction l with
    | nil => rfl
    | cons c l ih =>
      rw [Staged.appends] at ih ⊢
      by_cases hp : (c.1 == s.streamPath) = true <;> cases hc : c.2 <;> simp_all
  have hscanned : scanned.filter (·.1 == s.streamPath) = [] ∧ s.emits T.ts libraryMode env = [] ∨
      scanned.filter (·.1 == s.streamPath) = [(s.streamPath,s.emits T.ts libraryMode env)] := by
    rw [Registry.processEnvelope] at hscan
    rw [StandaloneShape.emits]
    cases henv : applyEnvelope T.ts env with
    | error e =>
      rw [henv] at hscan
      cases hscan
    | ok r =>
      obtain ⟨delta,txid,lsn⟩ := r
      rw [henv] at hscan
      dsimp only at hscan ⊢
      generalize (libraryMode && needsAbsoluteEmission env) = absolute at hscan ⊢
      have hplain := filter_plainOutput hl hown T.ts env.key delta ⟨txid,lsn⟩ absolute
      have haggs := filter_foldAggregates hl hown T.ts delta ⟨txid,lsn⟩
      generalize R.plainOutput T.ts env.key delta ⟨txid,lsn⟩ absolute = plain at hscan hplain
      split_ifs at hscan with hnone hempty
      · obtain ⟨-,rfl⟩ := Prod.mk.injEq .. ▸ Except.ok.inj hscan
        exact .inl ⟨rfl,by simp [hnone]⟩
      · obtain ⟨-,rfl⟩ := Prod.mk.injEq .. ▸ Except.ok.inj hscan
        rw [hplain]
        cases hs : Stamp.skips ⟨txid,lsn⟩ s.gate <;> simp [hnone]
      · cases registry with
        | error e => cases hscan
        | ok u =>
          obtain ⟨-,rfl⟩ := Prod.mk.injEq .. ▸ Except.ok.inj hscan
          rw [List.filter_append,hplain,haggs,List.append_nil]
          cases hs : Stamp.skips ⟨txid,lsn⟩ s.gate <;> simp [hnone]
  have hfiltered := hperm.filter (·.1 == s.streamPath)
  have hcomm : scanned.appends.filter (·.1 == s.streamPath) =
      Staged.appends (scanned.filter (·.1 == s.streamPath)) := by
    rw [Staged.appends,Staged.appends,List.filter_filter,List.filter_filter]
    exact List.filter_congr fun c _ => Bool.and_comm _ _
  rw [hcomm] at hfiltered
  rw [hflat]
  rcases hscanned with ⟨hnil,hemits⟩ | hone
  · rw [hnil] at hfiltered
    rw [List.perm_nil.mp hfiltered,hemits]
    rfl
  · rw [hone] at hfiltered
    cases hemits : s.emits T.ts libraryMode env with
    | nil =>
      simp only [hemits] at hfiltered
      rw [List.perm_nil.mp hfiltered]
      rfl
    | cons e es =>
      simp only [hemits] at hfiltered
      rw [List.perm_singleton.mp hfiltered]
      simp

end
end ElectricCircuits
