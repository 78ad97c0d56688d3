import Mathlib.Algebra.Group.Int.Defs
import Mathlib.Data.String.Basic
import Mathlib.Data.Prod.Lex

/-! The dynamically typed cells and positional rows of a Z-set delta. Equality and order of cells are
the source's derived ones; both factor through one key in a linear order. -/
namespace ElectricCircuits

/-- `OrderedFloat<f64>`, by the bits of the double it wraps. -/
structure OrderedFloat where
  bits : BitVec 64
  deriving DecidableEq

namespace OrderedFloat

def magnitude (f : OrderedFloat) : ℕ := f.bits.toNat % 2^63
def isNegative (f : OrderedFloat) : Bool := f.bits.msb
def isNan (f : OrderedFloat) : Bool := decide (0x7FF0000000000000 < f.magnitude)

/-- Position in the total order of `OrderedFloat`: sign and magnitude, with the two zeros in one
place and every NaN in one place above the infinities. -/
def key (f : OrderedFloat) : ℤ :=
  if f.isNan then 2^63 else if f.isNegative then -(f.magnitude : ℤ) else f.magnitude

end OrderedFloat

/-- A scalar cell. -/
inductive Value where
  | null
  | int (i : ℤ)
  | text (s : String)
  | bool (b : Bool)
  | float (f : OrderedFloat)
  deriving DecidableEq

namespace Value

/-- `PartialEq`: within a variant by payload, floats by their order. -/
def eqv : Value → Value → Bool
  | null, null => true
  | int x, int y => x == y
  | text x, text y => x == y
  | bool x, bool y => x == y
  | float x, float y => x.key == y.key
  | _, _ => false

/-- The order of two cells of one type; a type mismatch, or a NULL, has none. -/
def ordering : Value → Value → Option Ordering
  | int x, int y => some (compare x y)
  | float x, float y => some (compare x.key y.key)
  | text x, text y => some (compare x y)
  | bool x, bool y => some (compare x y)
  | _, _ => none

/-- Variant first and payload second: the derived `Ord`, as a point of a linear order. -/
def code : Value → ℕ ×ₗ ℤ ×ₗ String
  | null => toLex (0,toLex (0,""))
  | int i => toLex (1,toLex (i,""))
  | text s => toLex (2,toLex (0,s))
  | bool b => toLex (3,toLex (b.toNat,""))
  | float f => toLex (4,toLex (f.key,""))

/-- The type tag that `code` puts first. -/
def rank (v : Value) : ℕ := (ofLex v.code).1

theorem eqv_iff_code (a b : Value) : a.eqv b = true ↔ a.code = b.code := by
  cases a <;> cases b <;> simp [eqv,code]
  rename_i x y
  cases x <;> cases y <;> simp

@[simp] lemma eqv_refl (a : Value) : a.eqv a = true := (eqv_iff_code a a).mpr rfl

lemma eqv_comm (a b : Value) : a.eqv b = b.eqv a := by
  rw [Bool.eq_iff_iff,eqv_iff_code,eqv_iff_code,eq_comm]

lemma eqv_trans {a b c : Value} (h : a.eqv b = true) (h' : b.eqv c = true) : a.eqv c = true := by
  rw [eqv_iff_code] at h h' ⊢
  exact h.trans h'

@[simp] lemma eqv_null (a : Value) : a.eqv null = true ↔ a = null := by cases a <;> simp [eqv]
@[simp] lemma null_eqv (a : Value) : null.eqv a = true ↔ a = null := by cases a <;> simp [eqv]

lemma rank_eq_of_eqv {a b : Value} (h : a.eqv b = true) : a.rank = b.rank := by
  rw [eqv_iff_code] at h
  rw [rank,rank,h]

lemma compare_congr {α β : Type*} [LinearOrder α] [LinearOrder β] {x y : α} {u v : β}
    (hlt : x < y ↔ u < v) (heq : x = y ↔ u = v) : compare x y = compare u v := by
  rcases lt_trichotomy x y with h | h | h
  · rw [compare_lt_iff_lt.mpr h,compare_lt_iff_lt.mpr (hlt.mp h)]
  · rw [compare_eq_iff_eq.mpr h,compare_eq_iff_eq.mpr (heq.mp h)]
  · have hu : v < u := by
      rcases lt_trichotomy u v with hu | hu | hu
      · exact absurd (hlt.mpr hu) h.asymm
      · exact absurd (heq.mpr hu) h.ne'
      · exact hu
    rw [compare_gt_iff_gt.mpr h,compare_gt_iff_gt.mpr hu]

/-- Two cells have an order when they are of one type and not NULL, and then it is that of their
codes. -/
theorem ordering_eq (a b : Value) :
    a.ordering b = if a.rank = b.rank ∧ a ≠ null then some (compare a.code b.code) else none := by
  cases a <;> cases b <;> simp [ordering,rank,code] <;> apply compare_congr <;>
    simp [Prod.Lex.toLex_lt_toLex]
  -- what is left is the order of two truth values, by the number that stands for them
  all_goals
    rename_i x y
    cases x <;> cases y <;> decide

end Value

/-- A positional vector of cells; reading past the end gives NULL, as `get(..).unwrap_or` does. -/
structure Row where
  cells : List Value
  deriving DecidableEq

namespace Row

def cell (r : Row) (col : ℕ) : Value := r.cells.getD col .null

end Row

instance : BEq Value := ⟨Value.eqv⟩

namespace Value

lemma beq_iff_code (a b : Value) : (a == b) = true ↔ a.code = b.code := eqv_iff_code a b

instance : EquivBEq Value where
  rfl := eqv_refl _
  symm {a b} h := (eqv_comm b a).trans h
  trans := eqv_trans

end Value

/-- `PartialEq` of rows: cell by cell. -/
instance : BEq Row := ⟨fun a b => a.cells == b.cells⟩

namespace Row

lemma beq_iff_codes (a b : Row) :
    (a == b) = true ↔ a.cells.map Value.code = b.cells.map Value.code := by
  have h : ∀ xs ys : List Value,
      (xs == ys) = true ↔ xs.map Value.code = ys.map Value.code := by
    intro xs
    induction xs with
    | nil => intro ys; cases ys <;> simp
    | cons x xs ih =>
      intro ys
      cases ys with
      | nil => simp
      | cons y ys => simp [Value.beq_iff_code,ih]
  exact h a.cells b.cells

instance : EquivBEq Row where
  rfl := (beq_iff_codes _ _).mpr rfl
  symm h := (beq_iff_codes _ _).mpr ((beq_iff_codes _ _).mp h).symm
  trans h h' := (beq_iff_codes _ _).mpr (((beq_iff_codes _ _).mp h).trans ((beq_iff_codes _ _).mp h'))

end Row
end ElectricCircuits
