import ElectricCircuits.Lib.AssocMap
import Mathlib.Data.Finset.Basic
import Mathlib.Tactic.Ring

/-! The dictionary of primary keys, whose ids are handed out in order and stay, and the sets of the ids
delivered on each feed. A key is held on a feed when its id is in the feed's set. -/
namespace ElectricCircuits

/-- The interner of primary keys: as long as the ids fit into 32 bits, they are the places of the keys. -/
structure PkDict where
  forward : AssocMap String ℕ
  reverse : List String
  synced : reverse.length ≤ 2^32 → ∀ pk id, forward.get? pk = some id ↔ reverse[id]? = some pk

namespace PkDict

def empty : PkDict := ⟨.empty,[],by simp⟩

/-- The id of a key that has one; no id is handed out. -/
def get (d : PkDict) (pk : String) : Option ℕ := d.forward.get? pk

def resolve (d : PkDict) (id : ℕ) : Option String := d.reverse[id]?

def len (d : PkDict) : ℕ := d.reverse.length

lemma synced_push {forward : AssocMap String ℕ} {reverse : List String} {pk : String}
    (h : ∀ pk id, forward.get? pk = some id ↔ reverse[id]? = some pk) (hnew : forward.get? pk = none)
    (pk' : String) (id : ℕ) : (forward.insert pk reverse.length).get? pk' = some id ↔
      (reverse ++ [pk])[id]? = some pk' := by
  rw [AssocMap.get?_insert_eq]
  rcases Nat.lt_trichotomy id reverse.length with hlt | rfl | hgt
  · rw [List.getElem?_append_left hlt,← h]
    split_ifs with hpk
    · subst hpk
      simp [hnew,hlt.ne']
    · rfl
  · rw [List.getElem?_append_right (Nat.le_refl _),Nat.sub_self,List.getElem?_cons_zero,Option.some.injEq]
    have hnone : forward.get? pk' ≠ some reverse.length := by simp [h]
    split_ifs with hpk <;> simp [hpk,hnone]
  · have hnone : (reverse ++ [pk])[id]? = none := by
      rw [List.getElem?_eq_none_iff,List.length_append]
      exact hgt
    have hnone' : forward.get? pk' ≠ some id := by simp [h,hgt.le]
    rw [hnone]
    split_ifs <;> simp [hnone',hgt.ne]

/-- Under the write lock: a key without an id gets the next one, which is cut to 32 bits. -/
def mint (d : PkDict) (pk : String) : ℕ × PkDict :=
  match h : d.forward.get? pk with
  | some id => (id,d)
  | none => (d.reverse.length % 2^32,{
      forward := d.forward.insert pk (d.reverse.length % 2^32)
      reverse := d.reverse ++ [pk]
      synced := by
        intro hlen
        have hlt : d.reverse.length < 2^32 := by rwa [List.length_append] at hlen
        rw [Nat.mod_eq_of_lt hlt]
        exact synced_push (d.synced hlt.le) h })

/-- The lookup under the read lock, and the slow path, which looks again. -/
def getOrInsert (d : PkDict) (pk : String) : ℕ × PkDict :=
  match d.get pk with
  | some id => (id,d)
  | none => d.mint pk

section
variable {d : PkDict} {pk pk' : String} {id : ℕ}

lemma mint_of_get (h : d.get pk = some id) : d.mint pk = (id,d) := by
  unfold mint
  split
  · next id' h' => rw [Option.some.inj (h'.symm.trans h)]
  · next h' => cases h'.symm.trans h

lemma getOrInsert_eq (d : PkDict) (pk : String) : d.getOrInsert pk = d.mint pk := by
  rw [getOrInsert]
  cases h : d.get pk with
  | some id => rw [mint_of_get h]
  | none => rfl

lemma mint_len (d : PkDict) (pk : String) : (d.mint pk).2.len = if d.get pk = none then d.len+1 else d.len := by
  cases h : d.get pk with
  | some id => simp [mint_of_get h]
  | none =>
    unfold mint
    split
    · next h' => cases h'.symm.trans h
    · simp [len]

lemma len_le_mint (d : PkDict) (pk : String) : d.len ≤ (d.mint pk).2.len := by
  rw [mint_len]
  split_ifs <;> omega

/-- No id that was handed out is taken back. -/
lemma resolve_mint (h : d.resolve id = some pk') : (d.mint pk).2.resolve id = some pk' := by
  unfold mint
  split
  · exact h
  · obtain ⟨hlt,-⟩ := List.getElem?_eq_some_iff.mp h
    change (d.reverse ++ [pk])[id]? = some pk'
    rw [List.getElem?_append_left hlt]
    exact h

lemma get_iff (hlen : d.len ≤ 2^32) : d.get pk = some id ↔ d.resolve id = some pk := d.synced hlen pk id

lemma get_mint_self (d : PkDict) (pk : String) : (d.mint pk).2.get pk = some (d.mint pk).1 := by
  cases h : d.get pk with
  | some id => rw [mint_of_get h,h]
  | none =>
    unfold mint
    split
    · next h' => cases h'.symm.trans h
    · exact AssocMap.get?_insert_self ..

lemma get_mint (h : d.get pk' = some id) : (d.mint pk).2.get pk' = some id := by
  unfold mint
  split
  · exact h
  · next hnone =>
    change (d.forward.insert _ _).get? pk' = some id
    rw [AssocMap.get?_insert_eq,if_neg]
    · exact h
    · rintro rfl
      cases hnone.symm.trans h

/-- Besides the key asked for, no key gets an id. -/
lemma get_mint_of_ne (hne : pk ≠ pk') : (d.mint pk).2.get pk' = d.get pk' := by
  unfold mint
  split
  · rfl
  · change (d.forward.insert _ _).get? pk' = d.get pk'
    rw [AssocMap.get?_insert_eq,if_neg hne]
    rfl

/-- The id of a key is its own. -/
lemma get_inj (hlen : d.len ≤ 2^32) (h : d.get pk = some id) (h' : d.get pk' = some id) : pk = pk' := by
  rw [get_iff hlen] at h h'
  exact Option.some.inj (h.symm.trans h')

end

/-- One call of `get_or_insert`, between its two locks. -/
inductive Call where
  | looking (pk : String)
  | missed (pk : String)
  | done (pk : String) (id : ℕ)

/-- A dictionary that several tasks call. -/
structure Shared where
  dict : PkDict
  calls : List Call

namespace Shared

inductive Step : Shared → Shared → Prop
  | call (s : Shared) (pk : String) : Step s { s with calls := s.calls ++ [.looking pk] }
  | found (d : PkDict) (cs cs' : List Call) (pk : String) (id : ℕ) (h : d.get pk = some id) :
    Step ⟨d,cs ++ .looking pk :: cs'⟩ ⟨d,cs ++ .done pk id :: cs'⟩
  | miss (d : PkDict) (cs cs' : List Call) (pk : String) (h : d.get pk = none) :
    Step ⟨d,cs ++ .looking pk :: cs'⟩ ⟨d,cs ++ .missed pk :: cs'⟩
  | mint (d : PkDict) (cs cs' : List Call) (pk : String) :
    Step ⟨d,cs ++ .missed pk :: cs'⟩ ⟨(d.mint pk).2,cs ++ .done pk (d.mint pk).1 :: cs'⟩

inductive Reachable : Shared → Prop
  | start : Reachable ⟨.empty,[]⟩
  | step {s t : Shared} : Reachable s → Step s t → Reachable t

/-- Every call that returned was given the id that its key still has. -/
def Answered (s : Shared) : Prop := ∀ pk id, Call.done pk id ∈ s.calls → s.dict.get pk = some id

lemma Step.answered {s t : Shared} (hstep : Step s t) (h : s.Answered) : t.Answered := by
  intro pk id hmem
  cases hstep with
  | call s pk' => exact h pk id (by simpa using hmem)
  | found d cs cs' pk' id' hget =>
    rw [List.mem_append,List.mem_cons] at hmem
    rcases hmem with hmem | heq | hmem
    · exact h pk id (List.mem_append_left _ hmem)
    · obtain ⟨rfl,rfl⟩ := Call.done.inj heq
      exact hget
    · exact h pk id (List.mem_append_right _ (List.mem_cons_of_mem _ hmem))
  | miss d cs cs' pk' hget =>
    rw [List.mem_append,List.mem_cons] at hmem
    rcases hmem with hmem | heq | hmem
    · exact h pk id (List.mem_append_left _ hmem)
    · cases heq
    · exact h pk id (List.mem_append_right _ (List.mem_cons_of_mem _ hmem))
  | mint d cs cs' pk' =>
    rw [List.mem_append,List.mem_cons] at hmem
    rcases hmem with hmem | heq | hmem
    · exact get_mint (h pk id (List.mem_append_left _ hmem))
    · obtain ⟨rfl,rfl⟩ := Call.done.inj heq
      exact get_mint_self d pk
    · exact get_mint (h pk id (List.mem_append_right _ (List.mem_cons_of_mem _ hmem)))

lemma Reachable.answered {s : Shared} (h : Reachable s) : s.Answered := by
  induction h with
  | start => exact fun _ _ h => absurd h (List.not_mem_nil)
  | step _ hstep ih => exact hstep.answered ih

/-- However the calls interleave, two of them return the same id exactly if they asked for the same key, and
an id leads back to the key that it was returned for. -/
theorem Reachable.done_iff {s : Shared} (h : Reachable s) (hlen : s.dict.len ≤ 2^32) {pk pk' : String} {id id' : ℕ}
    (hdone : Call.done pk id ∈ s.calls) (hdone' : Call.done pk' id' ∈ s.calls) :
    (id = id' ↔ pk = pk') ∧ s.dict.resolve id = some pk ∧ id < s.dict.len := by
  have hget := h.answered pk id hdone
  have hget' := h.answered pk' id' hdone'
  have hresolve := (get_iff hlen).mp hget
  refine ⟨⟨?_,?_⟩,hresolve,(List.getElem?_eq_some_iff.mp hresolve).1⟩
  · rintro rfl
    exact get_inj hlen hget hget'
  · rintro rfl
    exact Option.some.inj (hget.symm.trans hget')

/-- Two tasks miss the same key, and both go on to mint it; a third asks for another key. -/
def sampleRace : Shared :=
  let d := (PkDict.empty.mint "a").2
  let d' := (d.mint "a").2
  ⟨(d'.mint "b").2,[.done "a" (PkDict.empty.mint "a").1,.done "a" (d.mint "a").1,.done "b" (d'.mint "b").1]⟩

lemma reachable_sampleRace : Reachable sampleRace := by
  have hcalls : Reachable ⟨.empty,[.looking "a",.looking "a",.looking "b"]⟩ :=
    .step (.step (.step .start (.call _ "a")) (.call _ "a")) (.call _ "b")
  have hmissed : Reachable ⟨.empty,[.missed "a",.missed "a",.missed "b"]⟩ :=
    .step (.step (.step hcalls (.miss _ [] _ "a" rfl)) (.miss _ [.missed "a"] _ "a" rfl))
      (.miss _ [.missed "a",.missed "a"] [] "b" rfl)
  exact .step (.step (.step hmissed (.mint _ [] _ "a")) (.mint _ [.done "a" _] _ "a"))
    (.mint _ [.done "a" _,.done "a" _] [] "b")

theorem sample_done_iff : (0 = 1 ↔ "a" = "b") ∧ sampleRace.dict.resolve 0 = some "a" ∧ 0 < sampleRace.dict.len :=
  reachable_sampleRace.done_iff (by decide) (List.mem_cons_of_mem _ List.mem_cons_self)
    (List.mem_cons_of_mem _ (List.mem_cons_of_mem _ List.mem_cons_self))

end Shared
end PkDict

/-- The ids delivered on each feed. -/
structure FeedSet where
  feeds : AssocMap ℕ (Finset ℕ)

namespace FeedSet

def empty : FeedSet := ⟨.empty⟩

def contains (f : FeedSet) (feedId id : ℕ) : Bool := (f.feeds.get? feedId).any (id ∈ ·)

/-- Put an id into a feed; was it new there? -/
def insert (f : FeedSet) (feedId id : ℕ) : Bool × FeedSet :=
  (!f.contains feedId id,⟨f.feeds.modify feedId ∅ (Insert.insert id)⟩)

/-- Take an id out of a feed; was it there? That it was is what lets a delete through. -/
def remove (f : FeedSet) (feedId id : ℕ) : Bool × FeedSet :=
  match f.feeds.get? feedId with
  | some ids => (decide (id ∈ ids),⟨f.feeds.insert feedId (ids.erase id)⟩)
  | none => (false,f)

def dropFeed (f : FeedSet) (feedId : ℕ) : FeedSet := ⟨f.feeds.erase feedId⟩

variable (f : FeedSet) (feedId feedId' id id' : ℕ)

@[simp] lemma contains_empty : empty.contains feedId id = false := rfl

lemma contains_insert : (f.insert feedId id).2.contains feedId' id' = true ↔
    feedId' = feedId ∧ id' = id ∨ f.contains feedId' id' = true := by
  rw [contains,contains,insert,AssocMap.get?_modify]
  by_cases hf : feedId' = feedId
  · subst hf
    cases f.feeds.get? feedId' <;> simp
  · simp [hf,Ne.symm hf]

lemma remove_fst : (f.remove feedId id).1 = f.contains feedId id := by
  rw [remove,contains]
  cases f.feeds.get? feedId <;> rfl

lemma contains_remove : (f.remove feedId id).2.contains feedId' id' = true ↔
    ¬(feedId' = feedId ∧ id' = id) ∧ f.contains feedId' id' = true := by
  rw [remove]
  cases hf : f.feeds.get? feedId with
  | none =>
    simp only [contains]
    refine iff_and_self.mpr ?_
    rintro h ⟨rfl,rfl⟩
    rw [hf] at h
    cases h
  | some ids =>
    simp only [contains,AssocMap.get?_insert]
    by_cases heq : feedId' = feedId
    · subst heq
      simp [hf]
    · simp [heq,Ne.symm heq]

lemma contains_dropFeed : (f.dropFeed feedId).contains feedId' id = true ↔
    feedId ≠ feedId' ∧ f.contains feedId' id = true := by
  rw [contains,contains,dropFeed,AssocMap.get?_erase]
  by_cases hf : feedId = feedId' <;> simp [hf]

end FeedSet
end ElectricCircuits
