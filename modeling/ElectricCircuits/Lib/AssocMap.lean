import Mathlib.Data.List.Induction
import Mathlib.Data.List.Nodup
import Mathlib.Data.List.Perm.Lattice

/-! Finite maps whose keys are compared by a boolean equality, in some order of iteration. An update
keeps the key that is there, as a hash or a tree map does. -/

structure AssocMap (α β : Type*) [BEq α] where
  entries : List (α × β)
  nodup : entries.Pairwise fun p q => (p.1 == q.1) = false

namespace AssocMap
variable {α β γ : Type*} [BEq α]

def empty : AssocMap α β := ⟨[],List.Pairwise.nil⟩

instance : Inhabited (AssocMap α β) := ⟨empty⟩

def get? (m : AssocMap α β) (k : α) : Option β := (m.entries.find? (·.1 == k)).map (·.2)

def keys (m : AssocMap α β) : List α := m.entries.map (·.1)

def values (m : AssocMap α β) : List β := m.entries.map (·.2)

def isEmpty (m : AssocMap α β) : Bool := m.entries.isEmpty

def erase (m : AssocMap α β) (k : α) : AssocMap α β :=
  ⟨m.entries.filter (!·.1 == k),m.nodup.filter _⟩

def filter (m : AssocMap α β) (p : α → β → Bool) : AssocMap α β :=
  ⟨m.entries.filter fun e => p e.1 e.2,m.nodup.filter _⟩

def mapValues (m : AssocMap α β) (f : α → β → γ) : AssocMap α γ :=
  ⟨m.entries.map fun e => (e.1,f e.1 e.2),List.pairwise_map.mpr m.nodup⟩

lemma nodup_update {l : List (α × β)} (h : l.Pairwise fun p q => (p.1 == q.1) = false) (k : α)
    (v : β) : (l.map fun p => if p.1 == k then (p.1,v) else p).Pairwise
      fun p q => (p.1 == q.1) = false := by
  refine List.pairwise_map.mpr (h.imp fun {p q} hpq => ?_)
  split_ifs <;> exact hpq

lemma nodup_append {l : List (α × β)} (h : l.Pairwise fun p q => (p.1 == q.1) = false) {k : α}
    (hk : l.any (·.1 == k) = false) (v : β) :
    (l ++ [(k,v)]).Pairwise fun p q => (p.1 == q.1) = false := by
  refine List.pairwise_append.mpr ⟨h,List.pairwise_singleton _ _,fun p hp q hq => ?_⟩
  obtain rfl := List.mem_singleton.mp hq
  simpa using List.any_eq_false.mp hk p hp

def insert (m : AssocMap α β) (k : α) (v : β) : AssocMap α β :=
  if h : m.entries.any (·.1 == k) = false then ⟨m.entries ++ [(k,v)],nodup_append m.nodup h v⟩
  else ⟨m.entries.map fun p => if p.1 == k then (p.1,v) else p,nodup_update m.nodup k v⟩

/-- The value of a key, put there when it is missing, is changed in place. -/
def modify (m : AssocMap α β) (k : α) (default : β) (f : β → β) : AssocMap α β :=
  m.insert k (f ((m.get? k).getD default))

@[simp] lemma get?_empty (k : α) : (empty : AssocMap α β).get? k = none := rfl

lemma get?_eq_none {m : AssocMap α β} {k : α} :
    m.get? k = none ↔ ∀ p ∈ m.entries, (p.1 == k) = false := by
  simp [get?,List.find?_eq_none]

section
variable [EquivBEq α]

lemma find?_congr {l : List (α × β)} {k k' : α} (h : (k == k') = true) :
    l.find? (·.1 == k) = l.find? (·.1 == k') := by
  refine congrFun (congrArg _ (funext fun p => ?_)) l
  rw [BEq.congr_right h]

lemma get?_congr (m : AssocMap α β) {k k' : α} (h : (k == k') = true) : m.get? k = m.get? k' := by
  rw [get?,get?,find?_congr h]

/-- An entry is what its key leads to. -/
lemma get?_of_mem {m : AssocMap α β} {k : α} {v : β} (h : (k,v) ∈ m.entries) :
    m.get? k = some v := by
  obtain ⟨l,hl⟩ := m
  simp only [get?] at h ⊢
  induction l with
  | nil => cases h
  | cons p l ih =>
    obtain ⟨hp,hl'⟩ := List.pairwise_cons.mp hl
    rcases List.mem_cons.mp h with rfl | h
    · simp
    · rw [List.find?_cons_of_neg (by simp [hp _ h])]
      exact ih hl' h

lemma get?_eq_some {m : AssocMap α β} {k : α} {v : β} :
    m.get? k = some v ↔ ∃ k', (k' == k) = true ∧ (k',v) ∈ m.entries := by
  constructor
  · intro h
    obtain ⟨⟨k',v'⟩,hfind,rfl⟩ := Option.map_eq_some_iff.mp h
    exact ⟨k',by simpa using List.find?_some hfind,List.mem_of_find?_eq_some hfind⟩
  · rintro ⟨k',hk,hmem⟩
    rw [← m.get?_congr hk]
    exact get?_of_mem hmem

lemma get?_insert (m : AssocMap α β) (k k' : α) (v : β) :
    (m.insert k v).get? k' = if (k == k') = true then some v else m.get? k' := by
  rw [insert]
  split_ifs with hany hk hk
  · -- a new entry is found last
    have hnone : m.entries.find? (·.1 == k') = none := by
      rw [← find?_congr hk,List.find?_eq_none]
      simpa using List.any_eq_false.mp hany
    simp [get?,List.find?_append,hnone,hk]
  · simp [get?,List.find?_append,hk]
  · obtain ⟨p,hp,hpk⟩ := List.any_eq_true.mp ((Bool.not_eq_false _).mp hany)
    refine get?_eq_some.mpr ⟨p.1,BEq.trans hpk hk,List.mem_map.mpr ⟨p,hp,?_⟩⟩
    simp [hpk]
  · rw [get?,get?,List.find?_map]
    have hsame : ((fun p : α × β => p.1 == k') ∘ fun p => if (p.1 == k) = true then (p.1,v) else p) =
        fun p => p.1 == k' := by
      funext p
      simp only [Function.comp_apply]
      split_ifs <;> rfl
    rw [hsame,Option.map_map]
    cases hf : m.entries.find? (·.1 == k') with
    | none => rfl
    | some p =>
      have hpk' : (p.1 == k') = true := by simpa using List.find?_some hf
      have hpk : ¬(p.1 == k) = true := fun h => hk (BEq.trans (BEq.symm h) hpk')
      simp [hpk]

@[simp] lemma get?_insert_self (m : AssocMap α β) (k : α) (v : β) :
    (m.insert k v).get? k = some v := by simp [get?_insert]

lemma get?_erase (m : AssocMap α β) (k k' : α) :
    (m.erase k).get? k' = if (k == k') = true then none else m.get? k' := by
  split_ifs with hk
  · refine get?_eq_none.mpr fun p hp => ?_
    by_contra hn
    have hpk : (p.1 == k) = true := BEq.trans (by simpa using hn) (BEq.symm hk)
    simp [erase,hpk] at hp
  · refine Option.ext fun v => ?_
    simp only [get?_eq_some,erase,List.mem_filter]
    refine exists_congr fun k'' => and_congr_right fun hk'' => and_iff_left ?_
    have hne : ¬(k'' == k) = true := fun h => hk (BEq.trans (BEq.symm h) hk'')
    simpa using hne

@[simp] lemma get?_erase_self (m : AssocMap α β) (k : α) : (m.erase k).get? k = none := by
  simp [get?_erase]

lemma get?_modify (m : AssocMap α β) (k k' : α) (default : β) (f : β → β) :
    (m.modify k default f).get? k' =
      if (k == k') = true then some (f ((m.get? k).getD default)) else m.get? k' :=
  get?_insert ..

lemma isEmpty_iff (m : AssocMap α β) : m.isEmpty = true ↔ ∀ k, m.get? k = none := by
  simp only [isEmpty,List.isEmpty_iff]
  constructor
  · intro h k
    simp [get?,h]
  · intro h
    by_contra hne
    obtain ⟨p,hp⟩ := List.exists_mem_of_ne_nil _ hne
    have := h p.1
    rw [get?_of_mem hp] at this
    cases this

end

/-- Add an item to the group of a key; a new group gets its head from the item that opens it. -/
def push (m : AssocMap α (β × List γ)) (k : α) (head : β) (x : γ) : AssocMap α (β × List γ) :=
  m.modify k (head,[]) fun g => (g.1,g.2 ++ [x])

/-- Grouping a list: each key has its items in their order, and the head of the first one. -/
theorem get?_foldl_push [EquivBEq α] (xs : List (α × β × γ)) (k : α) :
    (xs.foldl (fun m x => m.push x.1 x.2.1 x.2.2) empty).get? k =
      match xs.filter (·.1 == k) with
      | [] => none
      | x :: rest => some (x.2.1,(x :: rest).map (·.2.2)) := by
  induction xs using List.reverseRecOn with
  | nil => rfl
  | append_singleton xs x ih =>
    simp only [List.foldl_append,List.foldl_cons,List.foldl_nil,List.filter_append]
    rw [push,get?_modify]
    by_cases hk : (x.1 == k) = true
    · rw [get?_congr _ hk,ih]
      cases hx : xs.filter (·.1 == k) <;> simp [hk]
    · rw [if_neg hk,ih]
      simp [hk]

section
variable [LawfulBEq α]

lemma mem_entries (m : AssocMap α β) (k : α) (v : β) : (k,v) ∈ m.entries ↔ m.get? k = some v := by
  simp [get?_eq_some]

lemma get?_mapValues (m : AssocMap α β) (f : α → β → γ) (k : α) :
    (m.mapValues f).get? k = (m.get? k).map (f k) := by
  refine Option.ext fun w => ?_
  simp only [get?_eq_some,mapValues,List.mem_map,Option.map_eq_some_iff,beq_iff_eq,exists_eq_left]
  constructor
  · rintro ⟨p,hp,heq⟩
    obtain ⟨rfl,rfl⟩ := Prod.mk.injEq .. ▸ heq
    exact ⟨p.2,hp,rfl⟩
  · rintro ⟨v,hv,rfl⟩
    exact ⟨(k,v),hv,rfl⟩

lemma get?_filter (m : AssocMap α β) (p : α → β → Bool) (k : α) :
    (m.filter p).get? k = (m.get? k).filter (p k) := by
  refine Option.ext fun v => ?_
  simp only [get?_eq_some,filter,List.mem_filter,Option.filter_eq_some_iff,beq_iff_eq,exists_eq_left]

lemma get?_insert_eq [DecidableEq α] (m : AssocMap α β) (k k' : α) (v : β) :
    (m.insert k v).get? k' = if k = k' then some v else m.get? k' :=
  (get?_insert m k k' v).trans (if_congr beq_iff_eq rfl rfl)

lemma mem_keys (m : AssocMap α β) (k : α) : k ∈ m.keys ↔ (m.get? k).isSome := by
  rw [keys,List.mem_map,Option.isSome_iff_exists]
  constructor
  · rintro ⟨⟨k,v⟩,hm,rfl⟩
    exact ⟨v,(mem_entries m k v).mp hm⟩
  · rintro ⟨v,hv⟩
    exact ⟨(k,v),(mem_entries m k v).mpr hv,rfl⟩

lemma nodup_keys (m : AssocMap α β) : m.keys.Nodup :=
  List.pairwise_map.mpr (m.nodup.imp fun h => by simpa using h)

/-- Of a scan, the items that only one key can give. -/
lemma filter_filterMap (m : AssocMap α β) (f : α × β → Option γ) (p : γ → Bool) (k : α)
    (h : ∀ e ∈ m.entries, ∀ c ∈ f e, p c = true → e.1 = k) :
    (m.entries.filterMap f).filter p =
      (((m.get? k).bind fun v => f (k,v)).filter p).toList := by
  have hnone : ∀ l : List (α × β), (∀ e ∈ l, e ∈ m.entries ∧ e.1 ≠ k) →
      (l.filterMap f).filter p = [] := by
    intro l hl
    rw [List.filter_eq_nil_iff]
    intro c hc hpc
    obtain ⟨e,he,hec⟩ := List.mem_filterMap.mp hc
    exact (hl e he).2 (h e (hl e he).1 c hec hpc)
  cases hk : m.get? k with
  | none =>
    refine hnone _ fun e he => ⟨he,?_⟩
    rintro rfl
    have := get?_eq_none.mp hk e he
    simp at this
  | some v =>
    obtain ⟨l,l',hsplit⟩ := List.append_of_mem ((m.mem_entries k v).mpr hk)
    have hnodup := m.nodup
    rw [hsplit,List.pairwise_append,List.pairwise_cons] at hnodup
    obtain ⟨-,⟨hl',-⟩,hl⟩ := hnodup
    have hfront := hnone l fun e he => ⟨hsplit ▸ List.mem_append_left _ he,by
      simpa using hl e he _ List.mem_cons_self⟩
    have hback := hnone l' fun e he => ⟨hsplit ▸ List.mem_append_right _ (List.mem_cons_of_mem _ he),fun heq => by
      simpa [heq] using hl' e he⟩
    have hcons : ((k,v) :: l').filterMap f = (f (k,v)).toList ++ l'.filterMap f := by
      cases hf : f (k,v) <;> simp [hf]
    rw [hsplit,List.filterMap_append,hcons,List.filter_append,List.filter_append,hfront,hback,
      List.nil_append,List.append_nil,Option.bind_some]
    cases f (k,v) with
    | none => rfl
    | some c => cases hpc : p c <;> simp [hpc,Option.filter_some]

/-- Of the items of all entries, those that only one key can give. -/
lemma filter_flatMap (m : AssocMap α β) (f : α × β → List γ) (p : γ → Bool) {k : α} {v : β}
    (hk : m.get? k = some v) (h : ∀ e ∈ m.entries, ∀ c ∈ f e, p c = true → e.1 = k) :
    (m.entries.flatMap f).filter p = (f (k,v)).filter p := by
  have hnil : ∀ l : List (α × β), (∀ e ∈ l, e ∈ m.entries ∧ e.1 ≠ k) →
      (l.flatMap f).filter p = [] := by
    intro l hl
    rw [List.filter_eq_nil_iff]
    intro c hc hpc
    obtain ⟨e,he,hec⟩ := List.mem_flatMap.mp hc
    exact (hl e he).2 (h e (hl e he).1 c hec hpc)
  obtain ⟨l,l',hsplit⟩ := List.append_of_mem ((m.mem_entries k v).mpr hk)
  have hnodup := m.nodup
  rw [hsplit,List.pairwise_append,List.pairwise_cons] at hnodup
  obtain ⟨-,⟨hafter,-⟩,hbefore⟩ := hnodup
  have hleft := hnil l fun e he => ⟨hsplit ▸ List.mem_append_left _ he,fun heq => by
    have hne := hbefore e he (k,v) List.mem_cons_self
    simp [heq] at hne⟩
  have hright := hnil l' fun e he =>
    ⟨hsplit ▸ List.mem_append_right _ (List.mem_cons_of_mem _ he),fun heq => by
      have hne := hafter e he
      simp [heq] at hne⟩
  rw [hsplit,List.flatMap_append,List.flatMap_cons,List.filter_append,List.filter_append,hleft,hright,
    List.nil_append,List.append_nil]

/-- Items tagged by the keys that they were made from keep the order of the keys. -/
lemma tags_sublist {δ κ : Type*} (l : List δ) (key : δ → κ) (f : δ → Option γ) :
    ((l.filterMap fun x => (f x).map (key x,·)).map (·.1)).Sublist (l.map key) := by
  induction l with
  | nil => exact List.Sublist.refl []
  | cons x l ih =>
    cases hf : f x with
    | none => simpa [hf] using ih.cons (key x)
    | some c => simpa [hf] using ih.cons_cons (key x)

/-- A list with at most one item for each key, which has exactly the items that a scan of the entries
gives, is that scan in some order. -/
theorem perm_filterMap (m : AssocMap α β) (f : α → β → Option γ) {tagged : List (α × γ)}
    (hnodup : (tagged.map (·.1)).Nodup)
    (hmem : ∀ k c, (k,c) ∈ tagged ↔ ∃ v, m.get? k = some v ∧ f k v = some c) :
    tagged.Perm (m.entries.filterMap fun e => (f e.1 e.2).map (e.1,·)) := by
  have hscan := m.nodup_keys.sublist (tags_sublist m.entries (·.1) fun e => f e.1 e.2)
  refine (List.perm_ext_iff_of_nodup hnodup.of_map hscan.of_map).mpr ?_
  rintro ⟨k,c⟩
  simp only [hmem,List.mem_filterMap,Option.map_eq_some_iff,Prod.mk.injEq]
  constructor
  · rintro ⟨v,hv,hc⟩
    exact ⟨(k,v),(m.mem_entries k v).mpr hv,c,hc,rfl,rfl⟩
  · rintro ⟨⟨k',v⟩,he,c',hc,rfl,rfl⟩
    exact ⟨v,(m.mem_entries k' v).mp he,hc⟩

end

/-- Tags that belong to one entry each do not meet when the entries are gone through. -/
lemma nodup_flatMap {κ : Type*} (m : AssocMap α β) {items : α × β → List (κ × γ)}
    (owner : κ → α → Prop) (hunique : ∀ t k k', owner t k → owner t k' → (k == k') = true)
    (hitems : ∀ e ∈ m.entries, ((items e).map (·.1)).Nodup)
    (howner : ∀ e ∈ m.entries, ∀ x ∈ items e, owner x.1 e.1) :
    ((m.entries.flatMap items).map (·.1)).Nodup := by
  rw [List.map_flatMap,List.nodup_flatMap]
  refine ⟨hitems,m.nodup.imp_of_mem fun {e e'} he he' hne t ht ht' => ?_⟩
  obtain ⟨x,hx,rfl⟩ := List.mem_map.mp ht
  obtain ⟨x',hx',htag⟩ := List.mem_map.mp ht'
  have heq := hunique _ _ _ (howner e he x hx) (htag ▸ howner e' he' x' hx')
  exact Bool.false_ne_true (hne.symm.trans heq)

end AssocMap
