import ElectricCircuits.Lib.AssocMap

/-! A two-level index of values that can be empty: what is missing counts as empty, a value that an update
leaves empty is removed, and so is a first key without values. -/

abbrev Postings (κ ν γ : Type*) [BEq κ] [BEq ν] := AssocMap κ (AssocMap ν γ)

namespace Postings
variable {κ ν γ : Type*} [BEq κ] [BEq ν] [Inhabited γ]

/-- The value under two keys. -/
def lookup (b : Postings κ ν γ) (k : κ) (v : ν) : γ := ((b.get? k).bind (·.get? v)).getD default

/-- Change a value, made for the purpose if it is missing. -/
def put (b : Postings κ ν γ) (k : κ) (v : ν) (f : γ → γ) : Postings κ ν γ :=
  b.modify k .empty fun byVal => byVal.modify v default f

/-- Change a value that is there, and remove what runs empty. -/
def take [DecidableEq γ] (b : Postings κ ν γ) (k : κ) (v : ν) (f : γ → γ) : Postings κ ν γ :=
  match b.get? k with
  | none => b
  | some byVal =>
    let byVal :=
      match byVal.get? v with
      | none => byVal
      | some x => if f x = default then byVal.erase v else byVal.insert v (f x)
    if byVal.isEmpty then b.erase k else b.insert k byVal

@[simp] lemma lookup_empty (k : κ) (v : ν) : lookup (.empty : Postings κ ν γ) k v = default := rfl

variable [EquivBEq κ]

lemma lookup_of_isEmpty {b : Postings κ ν γ} (h : b.isEmpty = true) (k : κ) (v : ν) :
    b.lookup k v = default := by
  rw [lookup,(AssocMap.isEmpty_iff b).mp h k]
  rfl

/-- What a pass meets is the value under its keys. -/
lemma lookup_of_mem {b : Postings κ ν γ} {k : κ} {byVal : AssocMap ν γ} (hb : (k,byVal) ∈ b.entries)
    {v : ν} {x : γ} (hx : byVal.get? v = some x) : b.lookup k v = x := by
  rw [lookup,AssocMap.get?_of_mem hb,Option.bind_some,hx]
  rfl

variable [EquivBEq ν]

lemma lookup_congr (b : Postings κ ν γ) {k k' : κ} {v v' : ν} (hk : (k == k') = true)
    (hv : (v == v') = true) : b.lookup k v = b.lookup k' v' := by
  rw [lookup,lookup,b.get?_congr hk]
  cases b.get? k' with
  | none => rfl
  | some byVal => rw [Option.bind_some,Option.bind_some,byVal.get?_congr hv]

theorem lookup_put (b : Postings κ ν γ) (k k' : κ) (v v' : ν) (f : γ → γ) :
    (b.put k v f).lookup k' v' =
      if (k == k') = true ∧ (v == v') = true then f (b.lookup k' v') else b.lookup k' v' := by
  rw [lookup,put,AssocMap.get?_modify]
  by_cases hk : (k == k') = true
  · rw [if_pos hk,Option.bind_some,AssocMap.get?_modify,lookup,b.get?_congr hk]
    by_cases hv : (v == v') = true
    · rw [if_pos hv,if_pos ⟨hk,hv⟩]
      cases b.get? k' with
      | none => rfl
      | some byVal => simp [byVal.get?_congr hv]
    · rw [if_neg hv,if_neg fun h => hv h.2]
      cases b.get? k' <;> rfl
  · rw [if_neg hk,if_neg fun h => hk h.1,lookup]

/-- The values under the first key after one of them is changed. -/
lemma get?_take [DecidableEq γ] (byVal : AssocMap ν γ) (v v' : ν) (f : γ → γ) (hf : f default = default) :
    let byVal' :=
      match byVal.get? v with
      | none => byVal
      | some x => if f x = default then byVal.erase v else byVal.insert v (f x)
    (byVal'.get? v').getD default =
      if (v == v') = true then f ((byVal.get? v').getD default) else (byVal.get? v').getD default := by
  cases hx : byVal.get? v with
  | none =>
    dsimp only
    split_ifs with hv
    · rw [← byVal.get?_congr hv,hx,Option.getD_none,hf]
    · rfl
  | some x =>
    dsimp only
    split_ifs with hempty hv hv
    · rw [AssocMap.get?_erase,if_pos hv,← byVal.get?_congr hv,hx,Option.getD_some,hempty,Option.getD_none]
    · rw [AssocMap.get?_erase,if_neg hv]
    · rw [AssocMap.get?_insert,if_pos hv,← byVal.get?_congr hv,hx,Option.getD_some,Option.getD_some]
    · rw [AssocMap.get?_insert,if_neg hv]

theorem lookup_take [DecidableEq γ] (b : Postings κ ν γ) (k k' : κ) (v v' : ν) {f : γ → γ}
    (hf : f default = default) : (b.take k v f).lookup k' v' =
      if (k == k') = true ∧ (v == v') = true then f (b.lookup k' v') else b.lookup k' v' := by
  rw [take]
  cases hb : b.get? k with
  | none =>
    split_ifs with hkv
    · rw [← lookup_congr b hkv.1 hkv.2,lookup,hb]
      exact hf.symm
    · rfl
  | some byVal =>
    have htake := get?_take byVal v v' f hf
    dsimp only at htake ⊢
    by_cases hk : (k == k') = true
    · have hold : b.lookup k' v' = (byVal.get? v').getD default := by
        rw [lookup,← b.get?_congr hk,hb,Option.bind_some]
      simp only [hold,hk,true_and]
      rw [← htake]
      generalize (match byVal.get? v with
        | none => byVal
        | some x => if f x = default then byVal.erase v else byVal.insert v (f x)) = byVal'
      split_ifs with hempty
      · rw [lookup,AssocMap.get?_erase,if_pos hk,(AssocMap.isEmpty_iff byVal').mp hempty v']
        rfl
      · rw [lookup,AssocMap.get?_insert,if_pos hk,Option.bind_some]
    · have hno : ¬((k == k') = true ∧ (v == v') = true) := fun h => hk h.1
      rw [if_neg hno]
      split_ifs
      · rw [lookup,AssocMap.get?_erase,if_neg hk,lookup]
      · rw [lookup,AssocMap.get?_insert,if_neg hk,lookup]

/-- A pass over the index meets every value that is not empty. -/
lemma exists_of_lookup {b : Postings κ ν γ} {k : κ} {v : ν} (h : b.lookup k v ≠ default) :
    ∃ k' byVal v', (k' == k) = true ∧ (k',byVal) ∈ b.entries ∧ (v' == v) = true ∧
      (v',b.lookup k v) ∈ byVal.entries ∧ byVal.get? v = some (b.lookup k v) := by
  cases hb : b.get? k with
  | none => simp [lookup,hb] at h
  | some byVal =>
    cases hx : byVal.get? v with
    | none => simp [lookup,hb,hx] at h
    | some x =>
      obtain ⟨k',hk',hmem⟩ := AssocMap.get?_eq_some.mp hb
      obtain ⟨v',hv',hmem'⟩ := AssocMap.get?_eq_some.mp hx
      have hval : b.lookup k v = x := by rw [lookup,hb,Option.bind_some,hx,Option.getD_some]
      rw [hval]
      exact ⟨k',byVal,v',hk',hmem,hv',hmem',hx⟩

end Postings
