import ElectricCircuits.Lib.AssocMap

/-! A two-level index: under a first and a second key a bucket of items, in the order in which they
came. A bucket that runs empty is removed, and so is a first key without buckets. -/

abbrev Buckets (κ ν β : Type*) [BEq κ] [BEq ν] := AssocMap κ (AssocMap ν (List β))

namespace Buckets
variable {κ ν β : Type*} [BEq κ] [BEq ν]

/-- The bucket under two keys. -/
def bucket (b : Buckets κ ν β) (k : κ) (v : ν) : List β :=
  ((b.get? k).bind (·.get? v)).getD []

def put (b : Buckets κ ν β) (k : κ) (v : ν) (x : β) : Buckets κ ν β :=
  b.modify k .empty fun byVal => byVal.modify v [] (· ++ [x])

/-- Change a bucket in place. -/
def edit (b : Buckets κ ν β) (k : κ) (v : ν) (f : List β → List β) : Buckets κ ν β :=
  match b.get? k with
  | none => b
  | some byVal =>
    match byVal.get? v with
    | none => b
    | some xs =>
      if (f xs).isEmpty then
        if (byVal.erase v).isEmpty then b.erase k else b.insert k (byVal.erase v)
      else b.insert k (byVal.insert v (f xs))

@[simp] lemma bucket_empty (k : κ) (v : ν) : bucket (.empty : Buckets κ ν β) k v = [] := rfl

variable [EquivBEq κ] [EquivBEq ν]

lemma bucket_congr (b : Buckets κ ν β) {k k' : κ} {v v' : ν} (hk : (k == k') = true)
    (hv : (v == v') = true) : b.bucket k v = b.bucket k' v' := by
  rw [bucket,bucket,b.get?_congr hk]
  cases b.get? k' with
  | none => rfl
  | some byVal => simp [byVal.get?_congr hv]

theorem bucket_put (b : Buckets κ ν β) (k k' : κ) (v v' : ν) (x : β) :
    (b.put k v x).bucket k' v' =
      if (k == k') = true ∧ (v == v') = true then b.bucket k' v' ++ [x] else b.bucket k' v' := by
  rw [bucket,put,AssocMap.get?_modify]
  by_cases hk : (k == k') = true
  · rw [if_pos hk,Option.bind_some,AssocMap.get?_modify,bucket,b.get?_congr hk]
    by_cases hv : (v == v') = true
    · rw [if_pos hv,if_pos ⟨hk,hv⟩]
      cases b.get? k' with
      | none => rfl
      | some byVal => simp [byVal.get?_congr hv]
    · rw [if_neg hv,if_neg fun h => hv h.2]
      cases b.get? k' <;> simp
  · rw [if_neg hk,if_neg fun h => hk h.1,bucket]

theorem bucket_edit (b : Buckets κ ν β) (k k' : κ) (v v' : ν) {f : List β → List β}
    (hf : f [] = []) : (b.edit k v f).bucket k' v' =
      if (k == k') = true ∧ (v == v') = true then f (b.bucket k' v') else b.bucket k' v' := by
  by_cases hkv : (k == k') = true ∧ (v == v') = true
  · obtain ⟨hk,hv⟩ := hkv
    rw [if_pos ⟨hk,hv⟩,← bucket_congr _ hk hv,← bucket_congr _ hk hv,edit]
    cases hb : b.get? k with
    | none => simp [bucket,hb,hf]
    | some byVal =>
      cases hx : byVal.get? v with
      | none => simp [bucket,hb,hx,hf]
      | some xs =>
        simp only [hx]
        split_ifs with hempty herase
        · simp [bucket,hb,hx,List.isEmpty_iff.mp hempty]
        · simp [bucket,hb,hx,List.isEmpty_iff.mp hempty]
        · simp [bucket,hb,hx]
  · rw [if_neg hkv,edit]
    cases hb : b.get? k with
    | none => rfl
    | some byVal =>
      cases hx : byVal.get? v with
      | none => simp only [hx]
      | some xs =>
        simp only [hx]
        by_cases hk : (k == k') = true
        · have hv : ¬(v == v') = true := fun hv => hkv ⟨hk,hv⟩
          split_ifs with hempty herase
          · -- the first key goes with its last bucket
            have hnone := (AssocMap.isEmpty_iff _).mp herase v'
            rw [AssocMap.get?_erase,if_neg hv] at hnone
            simp [bucket,AssocMap.get?_erase,hk,← b.get?_congr hk,hb,hnone]
          · simp [bucket,AssocMap.get?_insert,hk,← b.get?_congr hk,hb,AssocMap.get?_erase,hv]
          · simp [bucket,AssocMap.get?_insert,hk,← b.get?_congr hk,hb,hv]
        · split_ifs <;> simp [bucket,AssocMap.get?_insert,AssocMap.get?_erase,hk]

lemma bucket_filter (b : Buckets κ ν β) (k k' : κ) (v v' : ν) (keep : β → Bool) :
    (b.edit k v (·.filter keep)).bucket k' v' =
      if (k == k') = true ∧ (v == v') = true then (b.bucket k' v').filter keep
      else b.bucket k' v' := bucket_edit b k k' v v' List.filter_nil

/-- A pass over the index meets every bucket. -/
lemma exists_of_mem_bucket {b : Buckets κ ν β} {k : κ} {v : ν} {x : β} (h : x ∈ b.bucket k v) :
    ∃ k' byVal v' xs, (k' == k) = true ∧ (k',byVal) ∈ b.entries ∧ (v' == v) = true ∧
      (v',xs) ∈ byVal.entries ∧ byVal.get? v = some xs ∧ x ∈ xs := by
  rw [bucket] at h
  cases hb : b.get? k with
  | none => simp [hb] at h
  | some byVal =>
    cases hx : byVal.get? v with
    | none => simp [hb,hx] at h
    | some xs =>
      obtain ⟨k',hk',hmem⟩ := AssocMap.get?_eq_some.mp hb
      obtain ⟨v',hv',hmem'⟩ := AssocMap.get?_eq_some.mp hx
      exact ⟨k',byVal,v',xs,hk',hmem,hv',hmem',hx,by simpa [hb,hx] using h⟩

end Buckets
