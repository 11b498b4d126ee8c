import Mathlib.Tactic.Linarith
import Mathlib.Algebra.Order.Ring.Abs
import Mathlib.Tactic.Ring
import Mathlib.Tactic.LinearCombination
import Mathlib.Data.Int.Log
import Mathlib.Data.Rat.Floor
import Mathlib.Tactic.Positivity

/-!
# Integer intervals

Bounds of a product and of an exact quotient of two integers of given intervals.

* `ediv_le_of_mul_eq`, `le_neg_ediv_of_mul_eq` : an exact quotient by a positive divisor lies between quotients of
  the bounds, rounded down and up.
-/

namespace IntInterval

variable {a b c d x y z : ℤ}

section
variable (hax : a ≤ x) (hxb : x ≤ b)
include hax hxb

theorem min_mul_le : min (a * y) (b * y) ≤ x * y := by
  rcases le_total 0 y with hy | hy
  · exact min_le_of_left_le (mul_le_mul_of_nonneg_right hax hy)
  · exact min_le_of_right_le (mul_le_mul_of_nonpos_right hxb hy)

theorem le_max_mul : x * y ≤ max (a * y) (b * y) := by
  rcases le_total 0 y with hy | hy
  · exact le_max_of_le_right (mul_le_mul_of_nonneg_right hxb hy)
  · exact le_max_of_le_left (mul_le_mul_of_nonpos_right hax hy)

theorem mul_mem_of_mem (hcy : c ≤ y) (hyd : y ≤ d) : min (min (a * c) (a * d)) (min (b * c) (b * d)) ≤ x * y ∧
      x * y ≤ max (max (a * c) (a * d)) (max (b * c) (b * d)) := by
  have hlow : ∀ w : ℤ, min (w * c) (w * d) ≤ w * y := fun w => by
    rw [mul_comm w c, mul_comm w d, mul_comm w y]
    exact min_mul_le hcy hyd
  have hhigh : ∀ w : ℤ, w * y ≤ max (w * c) (w * d) := fun w => by
    rw [mul_comm w c, mul_comm w d, mul_comm w y]
    exact le_max_mul hcy hyd
  exact ⟨(min_le_min (hlow a) (hlow b)).trans (min_mul_le hax hxb),
    (le_max_mul hax hxb).trans (max_le_max (hhigh a) (hhigh b))⟩

end

theorem ediv_le_of_mul_eq (ha : 0 < a) (hax : a ≤ x) (hxb : x ≤ b) (hcz : c ≤ z) (h : x * y = z) :
    c / a ≤ y ∨ c / b ≤ y := by
  rcases le_total 0 y with hy | hy
  · refine .inr (Int.ediv_le_of_le_mul (by omega) ?_)
    calc c ≤ x * y := by omega
      _ ≤ b * y := mul_le_mul_of_nonneg_right hxb hy
      _ = y * b := mul_comm b y
  · refine .inl (Int.ediv_le_of_le_mul ha ?_)
    calc c ≤ x * y := by omega
      _ ≤ a * y := mul_le_mul_of_nonpos_right hax hy
      _ = y * a := mul_comm a y

theorem le_neg_ediv_of_mul_eq (ha : 0 < a) (hax : a ≤ x) (hxb : x ≤ b) (hzd : z ≤ d) (h : x * y = z) :
    y ≤ -(-d / a) ∨ y ≤ -(-d / b) := by
  have hneg : x * -y = -z := by rw [mul_neg, h]
  rcases ediv_le_of_mul_eq ha hax hxb (show -d ≤ -z by omega) hneg with hle | hle
  · exact .inl (by omega)
  · exact .inr (by omega)

end IntInterval

/-! # Integer division with remainder -/

namespace IntDivision

/-- `x = d * y + m` with a remainder that has the sign of `y` and is smaller in magnitude. -/
structure FloorDivMod (x y d m : ℤ) : Prop where
  eq : x = d * y + m
  sign : m = 0 ∨ m.sign = y.sign
  lt : |m| < |y|

/-- `x = q * y + r` with a remainder that has the sign of `x` and is smaller in magnitude than `y`. -/
structure TruncDivMod (x y q r : ℤ) : Prop where
  eq : x = q * y + r
  sign : r = 0 ∨ r.sign = x.sign
  lt : |r| < |y|

section
variable {x y d m q r : ℤ}

theorem FloorDivMod.bounds (h : FloorDivMod x y d m) : (0 ≤ m ∧ m < y) ∨ (y < m ∧ m ≤ 0) := by
  have hlt := h.lt
  rcases lt_trichotomy y 0 with hy | hy | hy
  · right
    rw [abs_of_neg hy] at hlt
    have hm := abs_lt.1 hlt
    refine ⟨by omega, ?_⟩
    rcases h.sign with h0 | hs
    · omega
    · rw [Int.sign_eq_neg_one_of_neg hy] at hs
      exact le_of_lt (Int.sign_eq_neg_one_iff_neg.1 hs)
  · rw [hy, abs_zero] at hlt
    exact absurd hlt (not_lt.2 (abs_nonneg m))
  · left
    rw [abs_of_pos hy] at hlt
    have hm := abs_lt.1 hlt
    refine ⟨?_, by omega⟩
    rcases h.sign with h0 | hs
    · omega
    · rw [Int.sign_eq_one_of_pos hy] at hs
      exact le_of_lt (Int.sign_eq_one_iff_pos.1 hs)

theorem FloorDivMod.of_bounds (h : x = d * y + m) (hb : (0 ≤ m ∧ m < y) ∨ (y < m ∧ m ≤ 0)) : FloorDivMod x y d m := by
  refine ⟨h, ?_, ?_⟩
  · by_cases h0 : m = 0
    · exact .inl h0
    · right
      rcases hb with hb | hb
      · rw [Int.sign_eq_one_of_pos (by omega), Int.sign_eq_one_of_pos (by omega)]
      · rw [Int.sign_eq_neg_one_of_neg (by omega), Int.sign_eq_neg_one_of_neg (by omega)]
  · rcases hb with hb | hb
    · rw [abs_of_nonneg hb.1, abs_of_pos (by omega)]
      exact hb.2
    · rw [abs_of_nonpos hb.2, abs_of_neg (by omega)]
      omega

theorem floorDivMod_fdiv (x : ℤ) (hy : y ≠ 0) : FloorDivMod x y (x.fdiv y) (x.fmod y) := by
  have heq := Int.mul_fdiv_add_fmod x y
  apply FloorDivMod.of_bounds (by rw [mul_comm]; omega)
  rcases lt_or_gt_of_ne hy with h | h
  · have h1 := Int.fmod_nonneg_of_pos (-x) (show 0 < -y by omega)
    have h2 := Int.fmod_lt_of_pos (-x) (show 0 < -y by omega)
    rw [Int.neg_fmod_neg] at h1 h2
    exact .inr ⟨by omega, by omega⟩
  · exact .inl ⟨Int.fmod_nonneg_of_pos x h, Int.fmod_lt_of_pos x h⟩

theorem eq_of_mul_sub {y d d' m m' : ℤ} (h : d * y + m = d' * y + m') (hlt : |m - m'| < |y|) : d = d' ∧ m = m' := by
  have hmul : m - m' = (d' - d) * y := by
    have : (d' - d) * y = d' * y - d * y := by ring
    omega
  have h0 : d' - d = 0 := by
    by_contra hne
    have h1 := mul_le_mul_of_nonneg_right (Int.one_le_abs hne) (abs_nonneg y)
    rw [one_mul, ← abs_mul, ← hmul] at h1
    omega
  rw [h0, zero_mul] at hmul
  exact ⟨by omega, by omega⟩

theorem FloorDivMod.unique {d' m' : ℤ} (h : FloorDivMod x y d m) (h' : FloorDivMod x y d' m') : d = d' ∧ m = m' := by
  apply eq_of_mul_sub (h.eq.symm.trans h'.eq)
  rw [abs_lt]
  have hb := h.bounds
  have hb' := h'.bounds
  rcases le_total 0 y with hy | hy
  · rw [abs_of_nonneg hy]
    constructor <;> omega
  · rw [abs_of_nonpos hy]
    constructor <;> omega

theorem FloorDivMod.of_same {a b : ℕ} {s : ℤ} (hs : s = 1 ∨ s = -1) (hb : b ≠ 0) :
    FloorDivMod (s * a) (s * b) ((a / b : ℕ) : ℤ) (s * ((a % b : ℕ) : ℤ)) := by
  have heq := Nat.div_add_mod' a b
  have hlt := Nat.mod_lt a (Nat.pos_of_ne_zero hb)
  refine FloorDivMod.of_bounds ?_ ?_
  · calc s * (a : ℤ) = s * ((a / b * b + a % b : ℕ) : ℤ) := by rw [heq]
      _ = ((a / b : ℕ) : ℤ) * (s * b) + s * ((a % b : ℕ) : ℤ) := by
          rw [Int.natCast_add, Int.natCast_mul]
          ring
  · rcases hs with rfl | rfl
    · exact .inl ⟨by omega, by omega⟩
    · exact .inr ⟨by omega, by omega⟩

theorem FloorDivMod.of_opposite {a b : ℕ} {s : ℤ} (hs : s = 1 ∨ s = -1) (ha : a ≠ 0) (hb : b ≠ 0) :
    FloorDivMod (-s * a) (s * b) (-1 * (((a - 1) / b + 1 : ℕ) : ℤ)) (s * ((b - (a - 1) % b - 1 : ℕ) : ℤ)) := by
  have heq := Nat.div_add_mod' (a - 1) b
  have hlt := Nat.mod_lt (a - 1) (Nat.pos_of_ne_zero hb)
  have hr : ((b - (a - 1) % b - 1 : ℕ) : ℤ) = b - ((a - 1) % b : ℕ) - 1 := by omega
  have hcast : (((a - 1) / b : ℕ) : ℤ) * b + ((a - 1) % b : ℕ) = (a : ℤ) - 1 := by
    rw [← Int.natCast_mul, ← Int.natCast_add, heq]
    omega
  refine FloorDivMod.of_bounds ?_ ?_
  · rw [hr, Int.natCast_add, Int.natCast_one]
    linear_combination s * hcast
  · rcases hs with rfl | rfl
    · exact .inl ⟨by omega, by omega⟩
    · exact .inr ⟨by omega, by omega⟩

theorem TruncDivMod.neg (h : TruncDivMod x y q r) : TruncDivMod (-x) y (-q) (-r) := by
  refine ⟨?_, ?_, by rw [abs_neg]; exact h.lt⟩
  · rw [h.eq]
    ring
  · rcases h.sign with h0 | h0
    · exact .inl (by omega)
    · exact .inr (by rw [Int.sign_neg, Int.sign_neg, h0])

theorem TruncDivMod.neg_right (h : TruncDivMod x y q r) : TruncDivMod x (-y) (-q) r := by
  refine ⟨?_, h.sign, by rw [abs_neg]; exact h.lt⟩
  rw [h.eq]
  ring

theorem FloorDivMod.trunc (h : FloorDivMod x y d m) (hx : 0 ≤ x) (hy : 0 < y) : TruncDivMod x y d m := by
  refine ⟨h.eq, ?_, h.lt⟩
  have hb := h.bounds
  by_cases h0 : m = 0
  · exact .inl h0
  · right
    have hx0 : 0 < x := by
      rcases lt_or_eq_of_le hx with hlt | heq
      · exact hlt
      · -- a multiple of `y` that is between `-y` and `0` is `0`
        have hz : d * y + m = 0 * y + 0 := by rw [← h.eq]; omega
        exact absurd (eq_of_mul_sub hz (by rw [sub_zero]; exact h.lt)).2 h0
    rw [Int.sign_eq_one_of_pos hx0, Int.sign_eq_one_of_pos (by omega)]

theorem TruncDivMod.of_signs {a b s t : ℤ} (ha : 0 ≤ a) (hb : 0 < b) (hs : s = 1 ∨ s = -1)
    (ht : t = 1 ∨ t = -1) : TruncDivMod (s * a) (t * b) (s * t * a.fdiv b) (s * a.fmod b) := by
  have h := (floorDivMod_fdiv a (ne_of_gt hb)).trunc ha hb
  rcases hs with rfl | rfl <;> rcases ht with rfl | rfl
  · simpa using h
  · simpa using h.neg_right
  · simpa using h.neg
  · simpa using h.neg_right.neg

theorem TruncDivMod.unique {q' r' : ℤ} (h : TruncDivMod x y q r) (h' : TruncDivMod x y q' r') : q = q' ∧ r = r' := by
  apply eq_of_mul_sub (h.eq.symm.trans h'.eq)
  have h1 := abs_lt.1 h.lt
  have h2 := abs_lt.1 h'.lt
  -- both remainders are on the side of zero that `x` is on
  have hside : (0 ≤ r ∧ 0 ≤ r') ∨ (r ≤ 0 ∧ r' ≤ 0) := by
    rcases lt_trichotomy x 0 with hx | hx | hx
    · have hn : ∀ a : ℤ, (a = 0 ∨ a.sign = x.sign) → a ≤ 0 := by
        rintro a (ha | ha)
        · omega
        · rw [Int.sign_eq_neg_one_of_neg hx] at ha
          exact le_of_lt (Int.sign_eq_neg_one_iff_neg.1 ha)
      exact .inr ⟨hn r h.sign, hn r' h'.sign⟩
    · have hz : ∀ a : ℤ, (a = 0 ∨ a.sign = x.sign) → a = 0 := by
        rintro a (ha | ha)
        · exact ha
        · rw [hx, Int.sign_zero] at ha
          exact Int.sign_eq_zero_iff_zero.1 ha
      exact .inl ⟨le_of_eq (hz r h.sign).symm, le_of_eq (hz r' h'.sign).symm⟩
    · have hp : ∀ a : ℤ, (a = 0 ∨ a.sign = x.sign) → 0 ≤ a := by
        rintro a (ha | ha)
        · omega
        · rw [Int.sign_eq_one_of_pos hx] at ha
          exact le_of_lt (Int.sign_eq_one_iff_pos.1 ha)
      exact .inl ⟨hp r h.sign, hp r' h'.sign⟩
  rw [abs_lt]
  rcases le_total 0 y with hy | hy
  · rw [abs_of_nonneg hy] at h1 h2 ⊢
    constructor <;> omega
  · rw [abs_of_nonpos hy] at h1 h2 ⊢
    constructor <;> omega

theorem truncDivMod_tdiv (x : ℤ) (hy : y ≠ 0) : TruncDivMod x y (x.tdiv y) (x.tmod y) := by
  have hpos : ∀ a b : ℤ, 0 ≤ a → 0 < b → TruncDivMod a b (a.tdiv b) (a.tmod b) := by
    intro a b ha hb
    rw [Int.tdiv_eq_ediv_of_nonneg ha, Int.tmod_eq_emod_of_nonneg ha]
    refine FloorDivMod.trunc (FloorDivMod.of_bounds ?_ ?_) ha hb
    · have := Int.emod_add_mul_ediv a b
      rw [mul_comm] at this
      omega
    · exact .inl ⟨Int.emod_nonneg a (by omega), Int.emod_lt_of_pos a hb⟩
  rcases le_total 0 x with hx | hx <;> rcases lt_or_gt_of_ne hy with h | h
  · have := (hpos x (-y) hx (by omega)).neg_right
    simpa using this
  · exact hpos x y hx h
  · have := (hpos (-x) (-y) (by omega) (by omega)).neg_right.neg
    simpa using this
  · have := (hpos (-x) y (by omega) h).neg
    simpa using this

theorem fmod_eq_of_dvd_sub {x' : ℤ} (hy : y ≠ 0) (h : y ∣ x - x') : x.fmod y = x'.fmod y := by
  obtain ⟨k, hk⟩ := h
  have hfl := floorDivMod_fdiv x' hy
  have hshift : FloorDivMod x y (x'.fdiv y + k) (x'.fmod y) := by
    refine ⟨?_, hfl.sign, hfl.lt⟩
    linear_combination hfl.eq + hk
  exact ((floorDivMod_fdiv x hy).unique hshift).2

theorem tmod_eq_fmod_iff (hy : y ≠ 0) : x.tmod y = x.fmod y ↔ ¬ (x * y < 0 ∧ ¬ y ∣ x) := by
  have htr := truncDivMod_tdiv x hy
  have hfl := floorDivMod_fdiv x hy
  constructor
  · rintro h ⟨hneg, hnd⟩
    have h0 : x.tmod y ≠ 0 := fun h0 => hnd (Int.dvd_of_tmod_eq_zero h0)
    have h1 := htr.sign.resolve_left h0
    have h2 := hfl.sign.resolve_left (h ▸ h0)
    rw [← h, h1] at h2
    have hs : (x * y).sign = -1 := Int.sign_eq_neg_one_of_neg hneg
    rw [Int.sign_mul, h2] at hs
    have := mul_self_nonneg y.sign
    omega
  · intro h
    by_cases hd : y ∣ x
    · rw [Int.tmod_eq_zero_of_dvd hd, Int.fmod_eq_zero_of_dvd hd]
    · have hnn : 0 ≤ x * y := by
        by_contra hc
        exact h ⟨by omega, hd⟩
      -- operands of one sign: the truncating remainder has the sign of the divisor
      refine (hfl.unique ⟨htr.eq, ?_, htr.lt⟩).2.symm
      have h0 : x.tmod y ≠ 0 := fun h0 => hd (Int.dvd_of_tmod_eq_zero h0)
      right
      rw [htr.sign.resolve_left h0]
      rcases mul_nonneg_iff.1 hnn with ⟨hx, hy'⟩ | ⟨hx, hy'⟩
      · have hx0 : x ≠ 0 := fun h0 => hd (h0 ▸ dvd_zero y)
        rw [Int.sign_eq_one_of_pos (by omega), Int.sign_eq_one_of_pos (by omega)]
      · have hx0 : x ≠ 0 := fun h0 => hd (h0 ▸ dvd_zero y)
        rw [Int.sign_eq_neg_one_of_neg (by omega), Int.sign_eq_neg_one_of_neg (by omega)]

end

end IntDivision

/-! # Rounding a rational to a binary format -/

namespace Rounding

/-- The integer nearest to `q`; the even one of two. -/
def roundHalfEven (q : ℚ) : ℤ :=
  if q - ⌊q⌋ < 1 / 2 then ⌊q⌋
  else if 1 / 2 < q - ⌊q⌋ then ⌊q⌋ + 1
  else if ⌊q⌋ % 2 = 0 then ⌊q⌋ else ⌊q⌋ + 1

theorem abs_roundHalfEven_sub_le (q : ℚ) : |(roundHalfEven q : ℚ) - q| ≤ 1 / 2 := by
  have h0 := Int.floor_le q
  have h1 := Int.lt_floor_add_one q
  unfold roundHalfEven
  rw [abs_le]
  split_ifs <;> push_cast <;> constructor <;> linarith

theorem roundHalfEven_intCast (n : ℤ) : roundHalfEven n = n := by
  unfold roundHalfEven
  rw [Int.floor_intCast, sub_self, if_pos (by norm_num)]

/-- The exponent of the last place of a `p`-bit significand of size `q`. -/
def ulpExponent (p : ℕ) (q : ℚ) : ℤ := Int.log 2 |q| - (p - 1)

/-- The nearest number with a `p`-bit significand. -/
def roundBinary (p : ℕ) (q : ℚ) : ℚ :=
  roundHalfEven (q / 2 ^ ulpExponent p q) * 2 ^ ulpExponent p q

theorem abs_roundBinary_sub_le (p : ℕ) {q : ℚ} (hq : q ≠ 0) :
    |roundBinary p q - q| ≤ |q| * (1 / 2) ^ p := by
  have hlog : (2 : ℚ) ^ Int.log 2 |q| ≤ |q| :=
    Int.zpow_log_le_self (b := 2) (by norm_num) (abs_pos.2 hq)
  have hpos : (0 : ℚ) < 2 ^ ulpExponent p q := zpow_pos (by norm_num) _
  have herr := abs_roundHalfEven_sub_le (q / 2 ^ ulpExponent p q)
  have hfac : roundBinary p q - q =
      (roundHalfEven (q / 2 ^ ulpExponent p q) - q / 2 ^ ulpExponent p q) * 2 ^ ulpExponent p q := by
    rw [roundBinary, sub_mul, div_mul_cancel₀ _ (ne_of_gt hpos)]
  have hulp : (1 / 2 : ℚ) * 2 ^ ulpExponent p q = 2 ^ Int.log 2 |q| * (1 / 2) ^ p := by
    rw [ulpExponent, zpow_sub₀ (by norm_num), zpow_sub₀ (by norm_num), zpow_one, zpow_natCast, one_div, inv_pow]
    field_simp
  rw [hfac, abs_mul, abs_of_pos hpos]
  calc |(roundHalfEven (q / 2 ^ ulpExponent p q) : ℚ) - q / 2 ^ ulpExponent p q| * 2 ^ ulpExponent p q
      ≤ 1 / 2 * 2 ^ ulpExponent p q := mul_le_mul_of_nonneg_right herr (le_of_lt hpos)
    _ = 2 ^ Int.log 2 |q| * (1 / 2) ^ p := hulp
    _ ≤ |q| * (1 / 2) ^ p := mul_le_mul_of_nonneg_right hlog (by positivity)

theorem roundBinary_intCast {p : ℕ} {n : ℤ} (hn : |n| < 2 ^ p) : roundBinary p n = n := by
  by_cases h0 : n = 0
  · subst h0
    simp [roundBinary, show roundHalfEven 0 = 0 from by exact_mod_cast roundHalfEven_intCast 0]
  · have hlt : Int.log 2 |(n : ℚ)| < p := by
      rw [← Int.lt_zpow_iff_log_lt (by norm_num) (abs_pos.2 (by exact_mod_cast h0)), zpow_natCast]
      exact_mod_cast hn
    obtain ⟨k, hk⟩ : ∃ k : ℕ, ulpExponent p n = -(k : ℤ) :=
      ⟨((p : ℤ) - 1 - Int.log 2 |(n : ℚ)|).toNat, by unfold ulpExponent; omega⟩
    have hint : (n : ℚ) / 2 ^ ulpExponent p n = ((n * 2 ^ k : ℤ) : ℚ) := by
      rw [hk, zpow_neg, zpow_natCast, div_inv_eq_mul]
      push_cast
      rfl
    rw [roundBinary, hint, roundHalfEven_intCast, ← hint, div_mul_cancel₀ _ (zpow_ne_zero _ (by norm_num))]

theorem half_le_roundBinary {p : ℕ} (hp : 1 ≤ p) {q : ℚ} (hq : 0 < q) : q / 2 ≤ roundBinary p q := by
  have herr := (abs_le.1 (abs_roundBinary_sub_le p (ne_of_gt hq))).1
  have hpow : (1 / 2 : ℚ) ^ p ≤ 1 / 2 := pow_le_of_le_one (by norm_num) (by norm_num) (by omega)
  have hmul := mul_le_mul_of_nonneg_left hpow (le_of_lt hq)
  rw [abs_of_pos hq] at herr
  linarith

/-- A quotient `q` of an integer `a` by `c` keeps its floor when rounded to more bits than `a` has. -/
theorem floor_roundBinary {p : ℕ} {q : ℚ} {a c : ℤ} (hc : 0 < c) (hqc : q * c = a) (ha : |a| < 2 ^ p) :
    ⌊roundBinary p q⌋ = ⌊q⌋ := by
  by_cases hint : q = ⌊q⌋
  · have habs : |⌊q⌋| < 2 ^ p := by
      have hmul : ⌊q⌋ * c = a := by
        rw [hint] at hqc
        exact_mod_cast hqc
      calc |⌊q⌋| ≤ |⌊q⌋| * |c| := le_mul_of_one_le_right (abs_nonneg _) (Int.one_le_abs (ne_of_gt hc))
        _ = |a| := by rw [← abs_mul, hmul]
        _ < 2 ^ p := ha
    have hr : roundBinary p q = q := by
      rw [hint]
      exact roundBinary_intCast habs
    rw [hr]
  · have hq0 : q ≠ 0 := by
      rintro rfl
      exact hint (by simp)
    have hcq : (0 : ℚ) < c := by exact_mod_cast hc
    have hfl : (⌊q⌋ : ℚ) < q := lt_of_le_of_ne (Int.floor_le q) (fun h => hint h.symm)
    -- `q * c` is an integer, so `q` stays `1 / c` away from the two integers around it
    have hlow : (⌊q⌋ : ℚ) * c + 1 ≤ q * c := by
      have hlt : ⌊q⌋ * c < a := by
        have := mul_lt_mul_of_pos_right hfl hcq
        rw [hqc] at this
        exact_mod_cast this
      rw [hqc]
      exact_mod_cast hlt
    have hhigh : q * c + 1 ≤ ((⌊q⌋ : ℚ) + 1) * c := by
      have hlt : a < (⌊q⌋ + 1) * c := by
        have := mul_lt_mul_of_pos_right (Int.lt_floor_add_one q) hcq
        rw [hqc] at this
        exact_mod_cast this
      rw [hqc]
      exact_mod_cast hlt
    have herr : |roundBinary p q - q| * c < 1 := by
      have habs : |q| * c = |(a : ℚ)| := by rw [← hqc, abs_mul, abs_of_pos hcq]
      have hbound : |(a : ℚ)| * (1 / 2) ^ p < 1 := by
        rw [one_div, inv_pow, ← div_eq_mul_inv, div_lt_one (by positivity)]
        exact_mod_cast ha
      calc |roundBinary p q - q| * c ≤ |q| * (1 / 2) ^ p * c :=
            mul_le_mul_of_nonneg_right (abs_roundBinary_sub_le p hq0) (le_of_lt hcq)
        _ = |(a : ℚ)| * (1 / 2) ^ p := by rw [← habs]; ring
        _ < 1 := hbound
    have hle := abs_le.1 (le_refl |roundBinary p q - q|)
    rw [Int.floor_eq_iff]
    constructor
    · have := mul_le_mul_of_nonneg_right hle.1 (le_of_lt hcq)
      refine le_of_mul_le_mul_right ?_ hcq
      linarith
    · have := mul_le_mul_of_nonneg_right hle.2 (le_of_lt hcq)
      refine lt_of_mul_lt_mul_right ?_ (le_of_lt hcq)
      linarith

def trunc (q : ℚ) : ℤ := if 0 ≤ q then ⌊q⌋ else ⌈q⌉

theorem trunc_intCast (n : ℤ) : trunc n = n := by
  unfold trunc
  rw [Int.floor_intCast, Int.ceil_intCast, ite_self]

theorem floor_of_trunc (q : ℚ) : (if q < trunc q then trunc q - 1 else trunc q) = ⌊q⌋ := by
  unfold trunc
  by_cases hq : 0 ≤ q
  · rw [if_pos hq, if_neg (not_lt.2 (Int.floor_le q))]
  · rw [if_neg hq, eq_comm]
    split_ifs with hc <;> rw [Int.floor_eq_iff]
    · have := Int.ceil_lt_add_one q
      push_cast
      constructor <;> linarith
    · have := Int.le_ceil q
      constructor <;> linarith

end Rounding
