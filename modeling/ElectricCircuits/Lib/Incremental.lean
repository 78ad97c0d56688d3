import ElectricCircuits.Lib.GroupSum
import Mathlib.Tactic.Ring

/-! Operators on streams of batches of weighted tuples, by what they promise of net weights: a map that is kept by
upserts, the sum of a stream, and its distinct tuples. From them a pipeline that counts what the entries of the map
project to, and tells which projections come and go. -/
namespace Incremental
open GroupSum

instance instEquivBEqProd {α β : Type} [BEq α] [BEq β] [EquivBEq α] [EquivBEq β] : EquivBEq (α × β) where
  rfl {s} := Bool.and_eq_true_iff.mpr ⟨BEq.rfl,BEq.rfl⟩
  symm {s t} h := Bool.and_eq_true_iff.mpr ((Bool.and_eq_true_iff.mp h).imp BEq.symm BEq.symm)
  trans {s t u} h h' := by
    obtain ⟨h₁,h₂⟩ := Bool.and_eq_true_iff.mp h
    obtain ⟨h₁',h₂'⟩ := Bool.and_eq_true_iff.mp h'
    exact Bool.and_eq_true_iff.mpr ⟨BEq.trans h₁ h₁',BEq.trans h₂ h₂'⟩

/-- A test that does not tell equal tuples apart. -/
def Respects {α : Type} [BEq α] (p : α → Bool) : Prop := ∀ a b, (a == b) = true → p a = p b

/-- The map that upserts leave: of a key the last one stands, and one without a value takes the key out. -/
def upserted {κ β : Type} [BEq κ] (m : AssocMap κ β) (us : List (κ × Option β)) : AssocMap κ β :=
  us.foldl (fun m u =>
    match u.2 with
    | some v => m.insert u.1 v
    | none => m.erase u.1) m

/-- A map that takes in upserts and gives out the changes of its entries. -/
structure InputMap (κ β : Type) [BEq κ] [BEq β] where
  State : Type
  empty : State
  relation : State → AssocMap κ β
  push : State → List (κ × Option β) → State × List ((κ × β) × ℤ)
  relation_empty : (relation empty).entries = []
  get?_push : ∀ s us k, (relation (push s us).1).get? k = (upserted (relation s) us).get? k
  weight_push : ∀ s us p, Respects p →
    weight p (push s us).2 = (relation (push s us).1).entries.countP p-(relation s).entries.countP p

/-- The sum of a stream, as a cursor meets its tuples. -/
structure Integral (α : Type) [BEq α] where
  State : Type
  empty : State
  add : State → List (α × ℤ) → State
  tuples : State → List (α × ℤ)
  weight_empty : ∀ p, Respects p → weight p (tuples empty) = 0
  weight_add : ∀ s d p, Respects p → weight p (tuples (add s d)) = weight p (tuples s)+weight p d

/-- One for a tuple that is there. -/
def present (w : ℤ) : ℤ := if 0 < w then 1 else 0

/-- The distinct tuples of the sum of a stream, by their changes. -/
structure Distinct (α : Type) [BEq α] where
  State : Type
  empty : State
  total : State → α → ℤ
  push : State → List (α × ℤ) → State × List (α × ℤ)
  total_empty : ∀ a, total empty a = 0
  total_push : ∀ s d a, total (push s d).1 a = total s a+weight (· == a) d
  weight_push : ∀ s d a, weight (· == a) (push s d).2 = present (total (push s d).1 a)-present (total s a)

section
variable {κ β α : Type}

lemma weight_map (p : α → Bool) (f : β → α) (d : List (β × ℤ)) :
    weight p (d.map fun t => (f t.1,t.2)) = weight (p ∘ f) d := by
  induction d with
  | nil => rfl
  | cons t d ih => rw [List.map_cons,weight_cons,weight_cons,ih,Function.comp]

lemma respects_beq [BEq α] [EquivBEq α] (a : α) : Respects (· == a) :=
  fun _ _ h => BEq.congr_left h

variable [BEq κ] [BEq β] [BEq α] (M : InputMap κ β) (I : Integral α) (D : Distinct α)

/-- The entries of a map, projected and counted. -/
structure Projected where
  map : M.State
  counts : I.State
  distinct : D.State

namespace Projected

def empty : Projected M I D := ⟨M.empty,I.empty,D.empty⟩

variable {M I D} (f : κ × β → α)

/-- Push a batch of upserts: the next state, the changes of the map and those of the distinct projections. -/
def push (x : Projected M I D) (us : List (κ × Option β)) :
    Projected M I D × List ((κ × β) × ℤ) × List (α × ℤ) :=
  let changes := M.push x.map us
  let counts := changes.2.map fun t => (f t.1,t.2)
  let distinct := D.push x.distinct counts
  (⟨changes.1,I.add x.counts counts,distinct.1⟩,changes.2,distinct.2)

/-- The entries of the map that project to a tuple. -/
def count (x : Projected M I D) (a : α) : ℕ := (M.relation x.map).entries.countP fun t => f t == a

/-- Sum and distinct have counted the entries of the map. -/
structure Sound (x : Projected M I D) : Prop where
  counts : ∀ p, Respects p → weight p (I.tuples x.counts) = (M.relation x.map).entries.countP (p ∘ f)
  distinct : ∀ a, D.total x.distinct a = count f x a

variable {f}

lemma sound_empty : Sound f (empty M I D) where
  counts p hp := by
    rw [empty,I.weight_empty p hp,M.relation_empty]
    rfl
  distinct a := by
    rw [empty,D.total_empty,count,M.relation_empty]
    rfl

variable [EquivBEq α] (hf : ∀ s t, (s == t) = true → (f s == f t) = true)
include hf

omit [EquivBEq α] in
lemma respects_comp {p : α → Bool} (hp : Respects p) : Respects (p ∘ f) := fun s t h => hp _ _ (hf s t h)

lemma Sound.push {x : Projected M I D} (h : Sound f x) (us : List (κ × Option β)) : Sound f (push f x us).1 where
  counts p hp := by
    rw [Projected.push,I.weight_add _ _ p hp,h.counts p hp,weight_map,M.weight_push _ _ _ (respects_comp hf hp)]
    dsimp only
    ring
  distinct a := by
    rw [Projected.push,D.total_push,h.distinct a,weight_map,
      M.weight_push _ _ _ (respects_comp hf (respects_beq a))]
    dsimp only [count,Function.comp_def]
    ring

omit hf in
/-- The net weight of a tuple is the number of the entries that project to it. -/
lemma Sound.weight_eq {x : Projected M I D} (h : Sound f x) (a : α) :
    weight (· == a) (I.tuples x.counts) = count f x a := h.counts _ (respects_beq a)

omit [EquivBEq α] hf in
lemma count_pos {x : Projected M I D} (a : α) :
    0 < count f x a ↔ ∃ t ∈ (M.relation x.map).entries, (f t == a) = true := List.countP_pos_iff

/-- The change of a distinct projection is that of its being there. -/
lemma Sound.weight_push {x : Projected M I D} (h : Sound f x) (us : List (κ × Option β)) (a : α) :
    weight (· == a) (Projected.push f x us).2.2 =
      present (count f (Projected.push f x us).1 a)-present (count f x a) := by
  have hnext := (h.push hf us).distinct a
  rw [← hnext,← h.distinct a]
  exact D.weight_push x.distinct _ a

end Projected

end

section
variable {κ β α : Type}

lemma weight_const (p : α → Bool) (w : ℤ) (l : List α) : weight p (l.map (·,w)) = w*l.countP p := by
  induction l with
  | nil => simp
  | cons a l ih =>
    rw [List.map_cons,weight_cons,ih,List.countP_cons]
    split_ifs <;> push_cast <;> ring

variable [BEq κ] [BEq β] [BEq α]

/-- An input map that takes all of its entries out and puts them in again. -/
def InputMap.whole : InputMap κ β where
  State := AssocMap κ β
  empty := .empty
  relation := id
  push m us := (upserted m us,(upserted m us).entries.map (·,1) ++ m.entries.map (·,-1))
  relation_empty := rfl
  get?_push _ _ _ := rfl
  weight_push m us p _ := by
    rw [weight_append,weight_const,weight_const]
    dsimp only [id]
    ring

/-- A sum that keeps all batches. -/
def Integral.whole : Integral α where
  State := List (α × ℤ)
  empty := []
  add := (· ++ ·)
  tuples := id
  weight_empty _ _ := rfl
  weight_add _ _ p _ := weight_append p _ _

/-- The distinct tuples of a batch. -/
def distinctOf (d : List (α × ℤ)) : List (α × ℤ) := ((totals id d).mapValues fun _ => present).entries

lemma weight_distinctOf [EquivBEq α] (d : List (α × ℤ)) (a : α) :
    weight (· == a) (distinctOf d) = present (weight (· == a) d) := by
  have hget : ((totals id d).mapValues fun _ => present).get? a = ((totals id d).get? a).map present := by
    simp [AssocMap.get?,AssocMap.mapValues,List.find?_map,Function.comp_def]
  rw [distinctOf,weight_entries,hget,show weight (· == a) d = _ from weight_eq_get? id d a]
  cases (totals id d).get? a <;> rfl

/-- A distinct that keeps all batches, and gives out the old tuples as gone and the new ones as there. -/
def Distinct.whole [EquivBEq α] : Distinct α where
  State := List (α × ℤ)
  empty := []
  total s a := weight (· == a) s
  push s d := (s ++ d,distinctOf (s ++ d) ++ (distinctOf s).map fun t => (t.1,-t.2))
  total_empty _ := rfl
  total_push _ _ _ := weight_append _ _ _
  weight_push s d a := by
    have hneg : ∀ l : List (α × ℤ), weight (· == a) (l.map fun t => (t.1,-t.2)) = -weight (· == a) l := by
      intro l
      induction l with
      | nil => rfl
      | cons t l ih =>
        rw [List.map_cons,weight_cons,weight_cons,ih]
        split_ifs <;> ring
    rw [weight_append,hneg,weight_distinctOf,weight_distinctOf]
    ring

end

end Incremental
