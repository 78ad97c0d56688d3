import Mathlib.Algebra.Order.Archimedean.Basic
import Mathlib.Algebra.Order.Floor.Semifield
import Mathlib.Data.Rat.Floor
import Mathlib.Tactic.Linarith
import Mathlib.Tactic.NormNum
import Mathlib.Tactic.Ring

/-! Decimal text of binary64 magnitudes: the shortest decimal that rounds to the number, written without
an exponent. Magnitudes are counted in bit patterns and measured in units of `2^-1076`, a quarter of
the smallest number. -/
namespace Binary64

/-- What a bit pattern without its sign stands for. -/
def scaled (m : ℕ) : ℕ :=
  if m / 2^52 = 0 then 4*(m % 2^52) else 4*(m % 2^52+2^52)*2^(m / 2^52-1)

lemma scaled_eq (e : ℕ) {f : ℕ} (hf : f < 2^52) :
    scaled (2^52*e+f) = if e = 0 then 4*f else 4*(f+2^52)*2^(e-1) := by
  have hdiv : (2^52*e+f) / 2^52 = e := by omega
  have hmod : (2^52*e+f) % 2^52 = f := by omega
  rw [scaled,hdiv,hmod]

theorem scaled_lt_succ (m : ℕ) : scaled m < scaled (m+1) := by
  obtain ⟨e,f,hf,rfl⟩ : ∃ e f, f < 2^52 ∧ m = 2^52*e+f :=
    ⟨m / 2^52,m % 2^52,Nat.mod_lt m (by norm_num),(Nat.div_add_mod m _).symm⟩
  by_cases hcarry : f+1 = 2^52
  · -- the fraction overflows into the exponent
    have hnext : 2^52*e+f+1 = 2^52*(e+1)+0 := by omega
    rw [hnext,scaled_eq e hf,scaled_eq (e+1) (by norm_num),if_neg (Nat.succ_ne_zero e)]
    cases e with
    | zero =>
      rw [if_pos rfl]
      omega
    | succ e =>
      rw [if_neg (Nat.succ_ne_zero e)]
      have hpos : 0 < 2^e := by positivity
      have hlt : 4*(f+2^52) < 4*(0+2^52)*2 := by omega
      calc 4*(f+2^52)*2^(e+1-1) = 4*(f+2^52)*2^e := by rw [Nat.add_sub_cancel]
        _ < 4*(0+2^52)*2*2^e := Nat.mul_lt_mul_of_pos_right hlt hpos
        _ = 4*(0+2^52)*2^(e+1+1-1) := by
          rw [Nat.add_sub_cancel]
          ring
  · have hf' : f+1 < 2^52 := by omega
    rw [add_assoc,scaled_eq e hf,scaled_eq e hf']
    split_ifs
    · omega
    · exact Nat.mul_lt_mul_of_pos_right (by omega) (by positivity)

theorem scaled_strictMono : StrictMono scaled := strictMono_nat_of_lt_succ scaled_lt_succ

/-- A number that rounds to `m`: to the nearest, ties to even. -/
def RoundsTo (m : ℕ) (x : ℚ) : Prop :=
  let lo : ℚ := (scaled (m-1)+scaled m)/2
  let hi : ℚ := (scaled m+scaled (m+1))/2
  (lo < x ∧ x < hi) ∨ (m % 2 = 0 ∧ lo ≤ x ∧ x ≤ hi)

instance (m : ℕ) (x : ℚ) : Decidable (RoundsTo m x) :=
  inferInstanceAs (Decidable ((_ ∧ _) ∨ (_ ∧ _ ∧ _)))

lemma roundsTo_scaled {m : ℕ} (hm : 0 < m) : RoundsTo m (scaled m) := by
  have hlo : (scaled (m-1) : ℚ) < scaled m := by exact_mod_cast scaled_strictMono (by omega)
  have hhi : (scaled m : ℚ) < scaled (m+1) := by exact_mod_cast scaled_strictMono (by omega)
  exact .inl ⟨by linarith,by linarith⟩

/-- What rounds to less is less. -/
lemma lt_of_roundsTo {m n : ℕ} {x y : ℚ} (hmn : m < n) (hm : RoundsTo m x) (hn : RoundsTo n y) : x < y := by
  have h1 : (scaled m : ℚ) ≤ scaled (n-1) := by
    exact_mod_cast scaled_strictMono.monotone (by omega)
  have h2 : (scaled (m+1) : ℚ) ≤ scaled n := by
    exact_mod_cast scaled_strictMono.monotone (by omega)
  rcases hm with ⟨-,hm⟩ | ⟨hme,-,hm⟩
  · rcases hn with ⟨hn,-⟩ | ⟨-,hn,-⟩ <;> linarith
  · rcases hn with ⟨hn,-⟩ | ⟨hne,hn,-⟩
    · linarith
    · -- a tie between neighbours is even on one side only
      have hlt : m+1 < n := by omega
      have h3 : (scaled (m+1) : ℚ) < scaled n := by exact_mod_cast scaled_strictMono hlt
      linarith

lemma not_roundsTo_of_lt {m n : ℕ} {x : ℚ} (hmn : m < n) (hm : RoundsTo m x) : ¬RoundsTo n x :=
  fun hn => lt_irrefl x (lt_of_roundsTo hmn hm hn)

theorem roundsTo_unique {m n : ℕ} {x : ℚ} (hm : RoundsTo m x) (hn : RoundsTo n x) : m = n := by
  rcases lt_trichotomy m n with h | h | h
  · exact absurd hn (not_roundsTo_of_lt h hm)
  · exact h
  · exact absurd hm (not_roundsTo_of_lt h hn)

lemma roundsTo_mono {m n : ℕ} {x y : ℚ} (hxy : x ≤ y) (hm : RoundsTo m x) (hn : RoundsTo n y) : m ≤ n :=
  not_lt.mp fun hlt => absurd (lt_of_roundsTo hlt hn hm) hxy.not_gt

lemma eq_zero_of_roundsTo {m : ℕ} (h : RoundsTo m 0) : m = 0 := by
  by_contra hm
  have hpos : (0 : ℚ) < scaled m := by
    exact_mod_cast Nat.lt_of_le_of_lt (Nat.zero_le _) (scaled_strictMono (Nat.pos_of_ne_zero hm))
  have hprev : (0 : ℚ) ≤ scaled (m-1) := Nat.cast_nonneg _
  rcases h with ⟨hlo,-⟩ | ⟨-,hlo,-⟩ <;> linarith

/-- A magnitude with a sign is the nearest one to a number. -/
def Nearest (k : ℤ) (x : ℚ) : Prop := RoundsTo k.natAbs (|x| * 2^1076) ∧ (0 ≤ x → 0 ≤ k) ∧ (x ≤ 0 → k ≤ 0)

instance (k : ℤ) (x : ℚ) : Decidable (Nearest k x) :=
  inferInstanceAs (Decidable (_ ∧ (_ → _) ∧ (_ → _)))

/-- Rounding to the nearest keeps the order. -/
theorem nearest_mono {k l : ℤ} {x y : ℚ} (hxy : x ≤ y) (hk : Nearest k x) (hl : Nearest l y) : k ≤ l := by
  have hunit : (0 : ℚ) ≤ 2^1076 := by positivity
  rcases le_total 0 x with hx | hx
  · have hy := hx.trans hxy
    have habs : |x| * 2^1076 ≤ |y| * 2^1076 := by
      rw [abs_of_nonneg hx,abs_of_nonneg hy]
      exact mul_le_mul_of_nonneg_right hxy hunit
    have hle := roundsTo_mono habs hk.1 hl.1
    have hkpos := hk.2.1 hx
    have hlpos := hl.2.1 hy
    omega
  · have hkneg := hk.2.2 hx
    rcases le_total 0 y with hy | hy
    · exact hkneg.trans (hl.2.1 hy)
    · have habs : |y| * 2^1076 ≤ |x| * 2^1076 := by
        rw [abs_of_nonpos hx,abs_of_nonpos hy]
        exact mul_le_mul_of_nonneg_right (neg_le_neg hxy) hunit
      have hle := roundsTo_mono habs hl.1 hk.1
      have hlneg := hl.2.2 hy
      omega

theorem nearest_unique {k l : ℤ} {x : ℚ} (hk : Nearest k x) (hl : Nearest l x) : k = l :=
  le_antisymm (nearest_mono le_rfl hk hl) (nearest_mono le_rfl hl hk)

/-- The magnitude nearest to a natural number: below `2^53` it is exact, above the bits that do not fit are rounded
off, ties to even. -/
def ofNat (n : ℕ) : ℕ :=
  if n = 0 then 0
  else
    let s := n.log2
    if s ≤ 52 then 2^52*(s+1022)+n*2^(52-s)
    else
      let q := n / 2^(s-52)
      let r := n % 2^(s-52)
      2^52*(s+1022)+if 2^(s-52) < 2*r ∨ (2*r = 2^(s-52) ∧ q % 2 = 1) then q+1 else q

lemma scaled_normal {e q : ℕ} (hlo : 2^52 ≤ q) (hhi : q ≤ 2^53) : scaled (2^52*e+q) = 4*q*2^e := by
  rcases hhi.lt_or_eq with hlt | rfl
  · have hsplit : 2^52*e+q = 2^52*(e+1)+(q-2^52) := by omega
    rw [hsplit,scaled_eq (e+1) (by omega),if_neg (Nat.succ_ne_zero e),Nat.add_sub_cancel,Nat.sub_add_cancel hlo]
  · have hsplit : 2^52*e+2^53 = 2^52*(e+2)+0 := by omega
    rw [hsplit,scaled_eq (e+2) (by norm_num),if_neg (by omega)]
    have hexp : e+2-1 = e+1 := by omega
    rw [hexp,pow_succ]
    ring

/-- A number between two magnitudes with `k` bits less than it has. -/
lemma roundsTo_between {s k q r n : ℕ} (hk : s = 52+k) (hlo : 2^52 ≤ q) (hhi : q < 2^53) (hn : n = 2^k*q+r)
    (hr : r < 2^k) :
    RoundsTo (2^52*(s+1022)+if 2^k < 2*r ∨ (2*r = 2^k ∧ q % 2 = 1) then q+1 else q) (n*2^1076) := by
  have hscaled : ∀ p, 2^52 ≤ p → p ≤ 2^53 → (scaled (2^52*(s+1022)+p) : ℚ) = 2^k*p*2^1076 := by
    intro p hp hp'
    have hexp : 2^(s+1022) = 2^k*2^1074 := by rw [← pow_add]; congr 1; omega
    have hunit : (2 : ℚ)^1076 = 2^2*2^1074 := pow_add 2 2 1074
    rw [scaled_normal hp hp',hexp,hunit,Nat.cast_mul,Nat.cast_mul,Nat.cast_mul,Nat.cast_pow,Nat.cast_pow]
    generalize (2 : ℚ)^1074 = u
    push_cast
    ring
  have hq := hscaled q hlo (by omega)
  have hq' := hscaled (q+1) (by omega) (by omega)
  have hunit : (0 : ℚ) < 2^1076 := by positivity
  generalize (2 : ℚ)^1076 = u at hq hq' hunit ⊢
  have hnq : (n : ℚ)*u = 2^k*q*u+r*u := by
    rw [hn]
    push_cast
    ring
  have hru : (0 : ℚ) ≤ r*u := by positivity
  have hlt : (r : ℚ)*u < 2^k*u := mul_lt_mul_of_pos_right (by exact_mod_cast hr) hunit
  rw [Nat.cast_add,Nat.cast_one] at hq'
  have hnext : (2 : ℚ)^k*(q+1)*u = 2^k*q*u+2^k*u := by ring
  rw [hnext] at hq'
  have hdouble : ∀ a b : ℕ, a < b → (a : ℚ)*u < b*u := fun a b h => mul_lt_mul_of_pos_right (by exact_mod_cast h) hunit
  rw [RoundsTo,hnq]
  split_ifs with hup
  · -- up: below the upper magnitude, and not below the middle
    have hsub : 2^52*(s+1022)+(q+1)-1 = 2^52*(s+1022)+q := by omega
    have habove : ((scaled (2^52*(s+1022)+(q+1)) : ℕ) : ℚ) < scaled (2^52*(s+1022)+(q+1)+1) := by
      exact_mod_cast scaled_lt_succ _
    rw [hsub,hq]
    rw [hq'] at habove ⊢
    generalize ((scaled (2^52*(s+1022)+(q+1)+1) : ℕ) : ℚ) = y at habove ⊢
    rcases hup with hmore | ⟨htie,hodd⟩
    · have h2 := hdouble _ _ hmore
      push_cast at h2
      exact .inl ⟨by linarith,by linarith⟩
    · have h2 : (2 : ℚ)*r*u = 2^k*u := by rw [show (2 : ℚ)*r = 2^k from by exact_mod_cast htie]
      refine .inr ⟨by omega,by linarith,by linarith⟩
  · -- down: not below the lower magnitude, and not above the middle
    rw [not_or,not_lt,not_and] at hup
    have hbelow : ((scaled (2^52*(s+1022)+q-1) : ℕ) : ℚ) < scaled (2^52*(s+1022)+q) := by
      exact_mod_cast scaled_strictMono (by omega)
    rw [add_assoc,hq']
    rw [hq] at hbelow ⊢
    generalize ((scaled (2^52*(s+1022)+q-1) : ℕ) : ℚ) = y at hbelow ⊢
    rcases hup.1.lt_or_eq with hless | htie
    · have h2 := hdouble _ _ hless
      push_cast at h2
      exact .inl ⟨by linarith,by linarith⟩
    · have h2 : (2 : ℚ)*r*u = 2^k*u := by rw [show (2 : ℚ)*r = 2^k from by exact_mod_cast htie]
      have heven := hup.2 htie
      refine .inr ⟨by omega,by linarith,by linarith⟩

theorem roundsTo_ofNat (n : ℕ) : RoundsTo (ofNat n) (n*2^1076) := by
  rcases Nat.eq_zero_or_pos n with rfl | hn
  · exact .inr ⟨rfl,by simp [ofNat,scaled],by simp only [ofNat,if_true,Nat.cast_zero,zero_mul]; positivity⟩
  have hlow := Nat.log2_self_le hn.ne'
  have hhigh := Nat.lt_log2_self (n := n)
  rw [ofNat,if_neg hn.ne']
  dsimp only
  generalize n.log2 = s at hlow hhigh ⊢
  by_cases hs : s ≤ 52
  · -- the number is one of the magnitudes
    rw [if_pos hs]
    have h52 : 2^s*2^(52-s) = 2^52 := by rw [← pow_add]; congr 1; omega
    have h53 : 2^(s+1)*2^(52-s) = 2^53 := by rw [← pow_add]; congr 1; omega
    have hq : 2^52 ≤ n*2^(52-s) := h52 ▸ Nat.mul_le_mul_right _ hlow
    have hq' : n*2^(52-s) ≤ 2^53 := h53 ▸ Nat.mul_le_mul_right _ hhigh.le
    have hval : (scaled (2^52*(s+1022)+n*2^(52-s)) : ℚ) = n*2^1076 := by
      have hsum : 52-s+(s+1022) = 1074 := by omega
      have hexp : (2 : ℚ)^(52-s)*2^(s+1022) = 2^1074 := by rw [← pow_add,hsum]
      have hunit : (2 : ℚ)^1076 = 2^2*2^1074 := pow_add 2 2 1074
      rw [scaled_normal hq hq',hunit,← hexp,Nat.cast_mul,Nat.cast_mul,Nat.cast_mul,Nat.cast_pow,Nat.cast_pow]
      generalize (2 : ℚ)^(s+1022) = u
      push_cast
      ring
    exact hval ▸ roundsTo_scaled (by positivity)
  · rw [if_neg hs]
    have h52 : 2^52*2^(s-52) = 2^s := by rw [← pow_add]; congr 1; omega
    have h53 : 2^53*2^(s-52) = 2^(s+1) := by rw [← pow_add]; congr 1; omega
    have hpos : 0 < 2^(s-52) := by positivity
    exact roundsTo_between (by omega) ((Nat.le_div_iff_mul_le hpos).mpr (h52 ▸ hlow))
      ((Nat.div_lt_iff_lt_mul hpos).mpr (h53 ▸ hhigh)) (Nat.div_add_mod n _).symm (Nat.mod_lt n hpos)

/-- The decimal `q·10^p`, in units of `2^-1076`. -/
def decimal (d : ℕ × ℤ) : ℚ := d.1*10^d.2*2^1076

/-- The multiple of `10^p` that rounds to `m`, the nearest one if there are two. -/
def candidate (m : ℕ) (p : ℤ) : Option ℕ :=
  let v : ℚ := scaled m/(10^p*2^1076)
  let q := ⌊v⌋₊
  if RoundsTo m (decimal (q,p)) then
    if RoundsTo m (decimal (q+1,p)) ∧ (q+1 : ℚ)-v ≤ v-q then some (q+1) else some q
  else if RoundsTo m (decimal (q+1,p)) then some (q+1)
  else none

/-- The decimal with the fewest digits that rounds to `m`; below `10^-1076` the number itself is one. -/
def shortest (m : ℕ) : ℕ × ℤ :=
  ((List.range 1386).findSome? fun (i : ℕ) =>
    (candidate m (309-i)).map fun q => (q,(309-i : ℤ))).getD (scaled m*5^1076,-1076)

lemma candidate_roundsTo {m q : ℕ} {p : ℤ} (h : candidate m p = some q) :
    RoundsTo m (decimal (q,p)) := by
  simp only [candidate] at h
  split_ifs at h with h1 h2 h3
  · exact Option.some.inj h ▸ h2.1
  · exact Option.some.inj h ▸ h1
  · exact Option.some.inj h ▸ h3

lemma exact_decimal (a n : ℕ) : ((a*5^n : ℕ) : ℚ)*10^(-(n : ℤ))*2^n = a := by
  have h10 : (10 : ℚ)^n = 5^n*2^n := by
    rw [← mul_pow]
    norm_num
  rw [zpow_neg,zpow_natCast,h10]
  push_cast
  field_simp

theorem shortest_roundsTo {m : ℕ} (hm : 0 < m) : RoundsTo m (decimal (shortest m)) := by
  rw [shortest]
  cases hfind : (List.range 1386).findSome? fun (i : ℕ) =>
      (candidate m (309-i)).map fun q => (q,(309-i : ℤ)) with
  | some d =>
    obtain ⟨i,-,hi⟩ := List.exists_of_findSome?_eq_some hfind
    obtain ⟨q,hq,rfl⟩ := Option.map_eq_some_iff.mp hi
    exact candidate_roundsTo hq
  | none =>
    have hexact : decimal (scaled m*5^1076,-1076) = scaled m := exact_decimal (scaled m) 1076
    rw [Option.getD_none,hexact]
    exact roundsTo_scaled hm

/-- The digits of a decimal, with a point when it has a fraction. -/
def positional (d : ℕ × ℤ) : List Char :=
  if 0 ≤ d.2 then Nat.toDigits 10 (d.1*10^d.2.toNat)
  else
    let k := (-d.2).toNat
    let frac := Nat.toDigits 10 (d.1 % 10^k)
    Nat.toDigits 10 (d.1 / 10^k) ++ '.' :: (List.replicate (k-frac.length) '0' ++ frac)

lemma point_notMem_toDigits (n : ℕ) : '.' ∉ Nat.toDigits 10 n := by
  intro h
  have hdigit := Nat.isDigit_of_mem_toDigits (by norm_num) (by norm_num) h
  exact absurd hdigit (by decide)

lemma toDigits_inj {a b : ℕ} (h : Nat.toDigits 10 a = Nat.toDigits 10 b) : a = b := by
  rw [← Nat.ofDigitChars_ten_toDigits (n := a),h,Nat.ofDigitChars_ten_toDigits]

lemma repr_inj {m n : ℕ} (h : Nat.repr m = Nat.repr n) : m = n := by
  have hl := congrArg String.toList h
  rw [Nat.toList_repr,Nat.toList_repr] at hl
  exact toDigits_inj hl

lemma split_at_point {xs ys xs' ys' : List Char} (hx : '.' ∉ xs) (hx' : '.' ∉ xs')
    (h : xs ++ '.' :: ys = xs' ++ '.' :: ys') : xs = xs' ∧ ys = ys' := by
  induction xs generalizing xs' with
  | nil =>
    cases xs' with
    | nil => exact ⟨rfl,(List.cons.inj h).2⟩
    | cons x xs' =>
      obtain ⟨rfl,-⟩ := List.cons.inj h
      exact absurd List.mem_cons_self hx'
  | cons x xs ih =>
    cases xs' with
    | nil =>
      obtain ⟨rfl,-⟩ := List.cons.inj h
      exact absurd List.mem_cons_self hx
    | cons x' xs' =>
      obtain ⟨rfl,h'⟩ := List.cons.inj h
      obtain ⟨rfl,rfl⟩ := ih (fun hm => hx (List.mem_cons_of_mem _ hm))
        (fun hm => hx' (List.mem_cons_of_mem _ hm)) h'
      exact ⟨rfl,rfl⟩

/-- A fraction padded to `k` digits. -/
lemma length_padded {n k : ℕ} (hk : 0 < k) (hn : n < 10^k) :
    (List.replicate (k-(Nat.toDigits 10 n).length) '0' ++ Nat.toDigits 10 n).length = k := by
  have hlen := (Nat.length_toDigits_le_iff (b := 10) (by norm_num) hk).mpr hn
  rw [List.length_append,List.length_replicate]
  omega

lemma ofDigitChars_padded (n k : ℕ) :
    Nat.ofDigitChars 10 (List.replicate k '0' ++ Nat.toDigits 10 n) 0 = n := by
  rw [Nat.ofDigitChars_append,Nat.ofDigitChars_replicate_zero,mul_zero,
    Nat.ofDigitChars_ten_toDigits]

/-- The text of a decimal determines its value. -/
theorem positional_inj {d d' : ℕ × ℤ} (h : positional d = positional d') : decimal d = decimal d' := by
  obtain ⟨q,p⟩ := d
  obtain ⟨q',p'⟩ := d'
  have hwhole : ∀ (q : ℕ) {p : ℤ}, 0 ≤ p → (q*10^p.toNat : ℕ)*2^1076 = decimal (q,p) := by
    intro q p hp
    obtain ⟨n,rfl⟩ := Int.eq_ofNat_of_zero_le hp
    simp [decimal]
  simp only [positional] at h
  split_ifs at h with hp hp' hp'
  · rw [← hwhole q hp,← hwhole q' hp',toDigits_inj h]
  · exact absurd (h ▸ List.mem_append_right _ List.mem_cons_self) (point_notMem_toDigits _)
  · exact absurd (h ▸ List.mem_append_right _ List.mem_cons_self) (point_notMem_toDigits _)
  · obtain ⟨k,hk,rfl⟩ : ∃ k : ℕ, 0 < k ∧ p = -k := ⟨(-p).toNat,by omega,by omega⟩
    obtain ⟨k',hk',rfl⟩ : ∃ k : ℕ, 0 < k ∧ p' = -k := ⟨(-p').toNat,by omega,by omega⟩
    simp only [neg_neg,Int.toNat_natCast] at h
    obtain ⟨hint,hfrac⟩ := split_at_point (point_notMem_toDigits _) (point_notMem_toDigits _) h
    have hlen := congrArg List.length hfrac
    rw [length_padded hk (Nat.mod_lt _ (by positivity)),
      length_padded hk' (Nat.mod_lt _ (by positivity))] at hlen
    subst hlen
    have hmod : q % 10^k = q' % 10^k := by
      rw [← ofDigitChars_padded (q % 10^k),hfrac,ofDigitChars_padded]
    rw [← Nat.div_add_mod q (10^k),← Nat.div_add_mod q' (10^k),toDigits_inj hint,hmod]

/-- The text of a magnitude other than zero. -/
def display (m : ℕ) : List Char := positional (shortest m)

/-- Different magnitudes have different texts. -/
theorem display_inj {m n : ℕ} (hm : 0 < m) (hn : 0 < n) (h : display m = display n) : m = n := by
  refine roundsTo_unique (shortest_roundsTo hm) ?_
  rw [positional_inj h]
  exact shortest_roundsTo hn

/-- The same decimal with at least one place after the point. -/
def withPoint (d : ℕ × ℤ) : ℕ × ℤ := if 0 ≤ d.2 then (d.1*10^(d.2.toNat+1),-1) else d

lemma decimal_withPoint (d : ℕ × ℤ) : decimal (withPoint d) = decimal d := by
  obtain ⟨q,p⟩ := d
  unfold withPoint decimal
  generalize (2 : ℚ)^1076 = u
  split_ifs with h
  · obtain ⟨n,rfl⟩ := Int.eq_ofNat_of_zero_le h
    have hten : (10 : ℚ)^(n+1)*10^(-1 : ℤ) = 10^n := by
      rw [pow_succ,zpow_neg_one]
      field_simp
    simp only [Int.toNat_natCast,Nat.cast_mul,Nat.cast_pow,Nat.cast_ofNat,zpow_natCast]
    rw [mul_assoc (q : ℚ),hten]
  · rfl

lemma positional_chars (d : ℕ × ℤ) : ∀ c ∈ positional d, c.isDigit = true ∨ c = '.' := by
  have hdigit : ∀ n, ∀ c ∈ Nat.toDigits 10 n, c.isDigit = true :=
    fun n c hc => Nat.isDigit_of_mem_toDigits (by norm_num) (by norm_num) hc
  intro c hc
  rw [positional] at hc
  split_ifs at hc
  · exact .inl (hdigit _ c hc)
  · simp only [List.mem_append,List.mem_cons,List.mem_replicate] at hc
    rcases hc with hc | rfl | ⟨-,rfl⟩ | hc
    · exact .inl (hdigit _ c hc)
    · exact .inr rfl
    · exact .inl (by decide)
    · exact .inl (hdigit _ c hc)

lemma point_mem_withPoint (d : ℕ × ℤ) : '.' ∈ positional (withPoint d) := by
  have hneg : ¬0 ≤ (withPoint d).2 := by
    rw [withPoint]
    split_ifs with h
    · norm_num
    · exact h
  rw [positional,if_neg hneg]
  simp

/-- The text of a magnitude starts with a digit. -/
lemma head?_display (m : ℕ) : ∀ c ∈ (display m).head?, c.isDigit = true := by
  have hdigits : ∀ (n : ℕ) (rest : List Char), ∀ c ∈ (Nat.toDigits 10 n ++ rest).head?,
      c.isDigit = true := by
    intro n rest c hc
    rw [List.head?_append_of_ne_nil _ Nat.toDigits_ne_nil] at hc
    exact Nat.isDigit_of_mem_toDigits (by norm_num) (by norm_num) (List.mem_of_mem_head? hc)
  intro c hc
  rw [display,positional] at hc
  split_ifs at hc
  · exact hdigits _ [] c (by simpa using hc)
  · exact hdigits _ _ c hc

/-- A text with a point for every magnitude, zero among them. -/
def pointed (m : ℕ) : List Char := positional (if m = 0 then (0,-1) else withPoint (shortest m))

theorem pointed_inj {m n : ℕ} (h : pointed m = pointed n) : m = n := by
  have hzero : ∀ k, 0 < k → ¬RoundsTo k (decimal (0,-1)) := by
    intro k hk hr
    have hpos : (0 : ℚ) < scaled k := by
      exact_mod_cast Nat.lt_of_le_of_lt (Nat.zero_le _) (scaled_strictMono hk)
    have hlo : (0 : ℚ) < (scaled (k-1)+scaled k)/2 := by positivity
    simp only [decimal,Nat.cast_zero,zero_mul] at hr
    rcases hr with ⟨h1,-⟩ | ⟨-,h1,-⟩ <;> linarith
  have hrounds : ∀ k, 0 < k → RoundsTo k (decimal (if k = 0 then (0,-1) else withPoint (shortest k))) := by
    intro k hk
    rw [if_neg hk.ne',decimal_withPoint]
    exact shortest_roundsTo hk
  have hdec := positional_inj h
  rcases Nat.eq_zero_or_pos m with rfl | hm <;> rcases Nat.eq_zero_or_pos n with rfl | hn
  · rfl
  · exact absurd (hdec ▸ hrounds n hn) (hzero n hn)
  · exact absurd (hdec ▸ hrounds m hm) (hzero m hm)
  · exact roundsTo_unique (hrounds m hm) (hdec ▸ hrounds n hn)

lemma point_mem_pointed (m : ℕ) : '.' ∈ pointed m := by
  rw [pointed]
  split_ifs
  · decide
  · exact point_mem_withPoint _

end Binary64
