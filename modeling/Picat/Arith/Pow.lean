import Picat.Arith.Bitwise

/-!
# Powers

`**` on integers. A word is first raised by square-and-multiply in words, given up as soon as a product leaves 28
bits; then, and for a bigint, the same loop runs on bigints.

* `bpMathPow_iff` : `**` is right except for a bigint to the power zero, which is sent to floating point.
-/

namespace Picat
open Digits

/-- How `**` ends; `floatPow` is the float that `pow` returns for the operands as doubles. -/
inductive PowResult
  | value (t : Term)
  | floatPow (op1 op2 : Term)
  | outOfMemory
  | outOfBounds
deriving DecidableEq, Repr

/-! ## Words -/

/-- `tmp = (double)x*(double)y`, as a word when it is in the 28-bit range. -/
def mulDouble (x y : Int) : Option Int :=
  let tmp := Rounding.roundBinary 53 (Rounding.roundBinary 53 x * Rounding.roundBinary 53 y)
  if tmp > -268435456 ∧ tmp < 268435456 then some (Rounding.trunc tmp) else none

/-- The loop of `bp_pow_int_int`; `none` is `BP_ERROR`. -/
def powIntLoop (result base : Int) (ex : Nat) : Option Int :=
  (if ex % 2 = 1 then mulDouble result base else some result).bind fun result =>
    if _h : ex / 2 = 0 then some result
    else (mulDouble base base).bind fun base => powIntLoop result base (ex / 2)
termination_by ex
decreasing_by omega

def bpPowIntInt (base : Int) (ex : Nat) : Option Term :=
  if base = 0 then some (.int (if ex = 0 then 1 else 0))
  else
    let sign : Int := if base < 0 then (if ex % 2 = 0 then 1 else -1) else 1
    let base := if base < 0 then -base else base
    if base = 1 then some (.int (if sign = 1 then 1 else -1))
    else (powIntLoop 1 base ex).map fun result => if sign = 1 then makeint result else makeint (-result)

theorem pow_halve (b : Int) (n : Nat) : b ^ n = (if n % 2 = 1 then b else 1) * (b * b) ^ (n / 2) := by
  have hn := Nat.div_add_mod n 2
  have hsq : (b * b) ^ (n / 2) = b ^ (2 * (n / 2)) := by rw [← pow_two, ← pow_mul]
  conv_lhs => rw [← hn, pow_add]
  rw [hsq, mul_comm]
  congr 1
  split_ifs with h
  · rw [h, pow_one]
  · rw [show n % 2 = 0 by omega, pow_zero]

theorem mulDouble_spec {x y r : Int} (hx : 0 < x) (hy : 0 < y) (h : mulDouble x y = some r) :
    r = x * y ∧ bpIn28BIntRange r := by
  have hxq : (0 : ℚ) < x := by exact_mod_cast hx
  have hyq : (0 : ℚ) < y := by exact_mod_cast hy
  simp only [mulDouble] at h
  by_cases hlt : x * y < 2 ^ 53
  · have hxl : x < 2 ^ 53 := by nlinarith
    have hyl : y < 2 ^ 53 := by nlinarith
    have hxy : 0 < x * y := by positivity
    rw [Rounding.roundBinary_intCast (by rw [abs_of_pos hx]; exact hxl),
      Rounding.roundBinary_intCast (by rw [abs_of_pos hy]; exact hyl), ← Int.cast_mul,
      Rounding.roundBinary_intCast (by rw [abs_of_pos hxy]; exact hlt), Rounding.trunc_intCast] at h
    split_ifs at h with hr
    obtain rfl := Option.some.inj h
    refine ⟨rfl, ?_, ?_⟩
    · exact_mod_cast hr.1
    · exact_mod_cast hr.2
  · exfalso
    have hbig : (2 : ℚ) ^ 53 ≤ x * y := by exact_mod_cast not_lt.1 hlt
    have hx2 := Rounding.half_le_roundBinary (p := 53) (by decide) hxq
    have hy2 := Rounding.half_le_roundBinary (p := 53) (by decide) hyq
    have hprod : (x : ℚ) * y / 4 ≤ Rounding.roundBinary 53 x * Rounding.roundBinary 53 y := by
      calc (x : ℚ) * y / 4 = x / 2 * (y / 2) := by ring
        _ ≤ _ := mul_le_mul hx2 hy2 (by positivity) (le_trans (by positivity) hx2)
    have hround := Rounding.half_le_roundBinary (p := 53) (by decide)
      (lt_of_lt_of_le (show (0 : ℚ) < x * y / 4 by positivity) hprod)
    rw [if_neg] at h
    · cases h
    · intro hp
      obtain ⟨-, hr⟩ := hp
      norm_num at hbig
      linarith

theorem powIntLoop_spec {r : Int} (n : Nat) : ∀ {result base : Int}, 0 < result → 0 < base →
    bpIn28BIntRange result → powIntLoop result base n = some r → r = result * base ^ n ∧ bpIn28BIntRange r := by
  induction n using Nat.strong_induction_on with
  | _ n ih =>
    intro result base hres hbase hfit h
    rw [powIntLoop, Option.bind_eq_some_iff] at h
    obtain ⟨result', hstep, h⟩ := h
    have hmul : result' = result * (if n % 2 = 1 then base else 1) ∧ bpIn28BIntRange result' := by
      split_ifs at hstep ⊢ with hodd
      · exact mulDouble_spec hres hbase hstep
      · rw [mul_one]
        exact ⟨(Option.some.inj hstep).symm, Option.some.inj hstep ▸ hfit⟩
    have hres' : 0 < result' := by
      rw [hmul.1]
      split_ifs <;> positivity
    have hpow : result * base ^ n = result' * (base * base) ^ (n / 2) := by
      rw [pow_halve base n, hmul.1, mul_assoc]
    rw [hpow]
    split_ifs at h with hlast
    · rw [hlast, pow_zero, mul_one, ← Option.some.inj h]
      exact ⟨rfl, hmul.2⟩
    · rw [Option.bind_eq_some_iff] at h
      obtain ⟨base', hsq, h⟩ := h
      obtain ⟨hsq', -⟩ := mulDouble_spec hbase hbase hsq
      rw [← hsq']
      exact ih (n / 2) (by omega) hres' (by rw [hsq']; positivity) hmul.2 h

theorem bpPowIntInt_denotes {b : Int} {n : Nat} {t : Term} (h : bpPowIntInt b n = some t) : Denotes t (b ^ n) := by
  unfold bpPowIntInt at h
  by_cases h0 : b = 0
  · rw [if_pos h0] at h
    rw [← Option.some.inj h, h0]
    by_cases hn : n = 0
    · rw [if_pos hn, hn, pow_zero]
      exact denotes_makeint (v := 1) (by decide)
    · rw [if_neg hn, zero_pow hn]
      exact denotes_zero
  · rw [if_neg h0] at h
    -- sign and magnitude of the power
    obtain ⟨s, a, hs, ha, hval, hpow⟩ : ∃ s a : Int, (s = 1 ∨ s = -1) ∧ 0 < a ∧
        ((if b < 0 then (if n % 2 = 0 then 1 else -1) else 1) = s ∧ (if b < 0 then -b else b) = a) ∧
        b ^ n = s * a ^ n := by
      by_cases hneg : b < 0
      · refine ⟨if n % 2 = 0 then 1 else -1, -b, by split_ifs <;> simp, by omega,
          by rw [if_pos hneg, if_pos hneg]; exact ⟨rfl, rfl⟩, ?_⟩
        split_ifs with heven
        · rw [Even.neg_pow (Nat.even_iff.2 heven), one_mul]
        · rw [Odd.neg_pow (Nat.odd_iff.2 (by omega)), neg_one_mul, neg_neg]
      · exact ⟨1, b, .inl rfl, by omega, by rw [if_neg hneg, if_neg hneg]; exact ⟨rfl, rfl⟩, (one_mul _).symm⟩
    simp only [hval.1, hval.2] at h
    rw [hpow]
    by_cases h1 : a = 1
    · rw [if_pos h1] at h
      rw [← Option.some.inj h, h1, one_pow, mul_one]
      rcases hs with rfl | rfl
      · exact denotes_makeint (v := 1) (by decide)
      · exact denotes_makeint (v := -1) (by decide)
    · rw [if_neg h1, Option.map_eq_some_iff] at h
      obtain ⟨r, hr, h⟩ := h
      obtain ⟨hrv, hfit⟩ := powIntLoop_spec n (by decide) ha (by decide) hr
      rw [one_mul] at hrv
      have hin : ∀ c : Int, c.natAbs = r.natAbs → bpIn1WIntRange c := by
        intro c hc
        rw [in1W_iff, hc]
        unfold bpIn28BIntRange at hfit
        omega
      rw [← h, ← hrv]
      rcases hs with rfl | rfl
      · rw [if_pos rfl, one_mul]
        exact denotes_makeint (hin r rfl)
      · rw [if_neg (by decide), neg_one_mul]
        exact denotes_makeint (hin (-r) (Int.natAbs_neg r))

/-! ## Bigints -/

/-- The loop of `bp_pow_bigint_int`. -/
def powBigintLoop (result : Term) (base : Bigint) (ex : Nat) : Except ArithError Term :=
  (if ex % 2 = 1 then bpMulBigintBigint result.toBigint base else .ok (.bigint result.toBigint)).bind fun result =>
    if _h : ex / 2 = 0 then .ok result
    else (bpMulBigintBigint base base).bind fun base => powBigintLoop result base.toBigint (ex / 2)
termination_by ex
decreasing_by omega

/-- `bp_pow_bigint_int`, for `abs(base) > 1` and `ex > 0`. -/
def bpPowBigintInt (base : Bigint) (ex : Nat) : Except ArithError Term :=
  powBigintLoop (.bigint (bpIntToBigint 1)) base ex

theorem powBigintLoop_spec (n : Nat) : ∀ {result : Term} {base : Bigint} {r b : Int}, 0 < n →
    IsBigint result.toBigint r → r ≠ 0 → IsBigint base b → b ≠ 0 →
    ∃ t, powBigintLoop result base n = .ok t ∧ Denotes t (r * b ^ n) := by
  induction n using Nat.strong_induction_on with
  | _ n ih =>
    intro result base r b hn hres hr hbase hb
    have hpow : r * b ^ n = r * (if n % 2 = 1 then b else 1) * (b * b) ^ (n / 2) := by
      rw [pow_halve b n, mul_assoc]
    have hne : r * (if n % 2 = 1 then b else 1) ≠ 0 := by
      split_ifs
      · exact mul_ne_zero hr hb
      · rwa [mul_one]
    obtain ⟨t, ht, htv, hcanon⟩ : ∃ t, (if n % 2 = 1 then bpMulBigintBigint result.toBigint base
        else .ok (.bigint result.toBigint)) = .ok t ∧ IsBigint t.toBigint (r * (if n % 2 = 1 then b else 1)) ∧
        (n % 2 = 1 → Denotes t (r * (if n % 2 = 1 then b else 1))) := by
      by_cases hodd : n % 2 = 1
      · obtain ⟨t, ht, hd⟩ := bpMulBigintBigint_denotes hres hbase hr hb
        simp only [if_pos hodd]
        exact ⟨t, ht, hd.2 ▸ isBigint_toBigint hd.1, fun _ => hd⟩
      · simp only [if_neg hodd, mul_one]
        exact ⟨_, rfl, hres, fun h => absurd h hodd⟩
    rw [powBigintLoop, ht, hpow]
    simp only [Except.bind]
    by_cases hlast : n / 2 = 0
    · -- the last bit is set, so the result comes out of a multiplication
      rw [dif_pos hlast, hlast, pow_zero, mul_one]
      exact ⟨t, rfl, hcanon (by omega)⟩
    · rw [dif_neg hlast]
      obtain ⟨u, hu, hd⟩ := bpMulBigintBigint_denotes hbase hbase hb hb
      rw [hu]
      exact ih (n / 2) (by omega) (by omega) htv hne (hd.2 ▸ isBigint_toBigint hd.1) (mul_ne_zero hb hb)

theorem bpPowBigintInt_denotes {base : Bigint} {b : Int} {n : Nat} (h : IsBigint base b) (hb : b ≠ 0)
    (hn : 0 < n) : ∃ t, bpPowBigintInt base n = .ok t ∧ Denotes t (b ^ n) := by
  have hone : IsBigint (Term.bigint (bpIntToBigint 1)).toBigint 1 := isBigint_bpIntToBigint 1
  have hloop := powBigintLoop_spec n hn hone one_ne_zero h hb
  rwa [one_mul] at hloop

/-! ## The operator -/

/-- What a call of `bp_pow_bigint_int` returns. -/
def PowResult.ofExcept : Except ArithError Term → PowResult
  | .ok t => .value t
  | .error _ => .outOfBounds

/-- `bp_math_pow` on integers. -/
def bpMathPow : Term → Term → PowResult
  | .int op1, .int op2 =>
    if op2 ≥ 0 then
      match bpPowIntInt op1 op2.toNat with
      | some res => .value res
      | none => .ofExcept (bpPowBigintInt (bpIntToBigint op1) op2.toNat)
    else .floatPow (.int op1) (.int op2)
  | .int op1, .bigint op2 =>
    if op2.sign > 0 then
      if op1 = 0 then .value (.int 0)
      else if op1 = 1 then .value (.int 1)
      else if op1 = -1 then
        .value (if bpAndBigintBigint op2 (bpIntToBigint 1) = .int 0 then .int 1 else .int (-1))
      else .outOfMemory
    else .floatPow (.int op1) (.bigint op2)
  | .bigint op1, .int op2 =>
    if op2 > 0 then .ofExcept (bpPowBigintInt op1 op2.toNat) else .floatPow (.bigint op1) (.int op2)
  | .bigint op1, .bigint op2 =>
    if op2.sign > 0 then .outOfMemory else .floatPow (.bigint op1) (.bigint op2)

/-- `**` returns the canonical power, and where the word loop has a result the bigint loop has the same. -/
structure PowMeets (x : Number) (n : Nat) : Prop where
  value : ∃ t, bpMathPow x.term (.int n) = .value t ∧ Denotes t (x.val ^ n)
  agree : ∀ v t, x.term = .int v → v ≠ 0 → 0 < n → bpPowIntInt v n = some t → bpPowBigintInt (bpIntToBigint v) n = .ok t

theorem bpMathPow_word {a : Int} (n : Nat) : ∃ t, bpMathPow (.int a) (.int n) = .value t ∧ Denotes t (a ^ n) := by
  rw [bpMathPow, if_pos (by omega), Int.toNat_natCast]
  cases hr : bpPowIntInt a n with
  | some t => exact ⟨t, rfl, bpPowIntInt_denotes hr⟩
  | none =>
    -- the word loop has answers for the base 0 and for the exponent 0
    have ha : a ≠ 0 := by
      rintro rfl
      simp [bpPowIntInt] at hr
    have hn : 0 < n := by
      by_contra h0
      obtain rfl : n = 0 := by omega
      have hloop : ∀ b : Int, powIntLoop 1 b 0 = some 1 := by
        intro b
        rw [powIntLoop]
        rfl
      simp only [bpPowIntInt, if_neg ha, hloop, Option.map_some] at hr
      split_ifs at hr
    obtain ⟨t, ht, hd⟩ := bpPowBigintInt_denotes (isBigint_bpIntToBigint a) ha hn
    refine ⟨t, ?_, hd⟩
    simp only [ht, PowResult.ofExcept]

/-- `**` returns the exact power, except for a bigint to the power zero. -/
theorem bpMathPow_iff (x : Number) (n : Nat) : PowMeets x n ↔ bpIn1WIntRange x.val ∨ n ≠ 0 := by
  have hagree : ∀ v t, x.term = .int v → v ≠ 0 → 0 < n → bpPowIntInt v n = some t →
      bpPowBigintInt (bpIntToBigint v) n = .ok t := by
    intro v t _ hv hn ht
    obtain ⟨u, hu, hd⟩ := bpPowBigintInt_denotes (isBigint_bpIntToBigint v) hv hn
    rw [hu, hd.unique (bpPowIntInt_denotes ht)]
  constructor
  · intro h
    rcases x with ⟨a | a, hx⟩
    · exact .inl hx
    · right
      rintro rfl
      obtain ⟨t, ht, -⟩ := h.value
      rw [bpMathPow, if_neg (by decide)] at ht
      cases ht
  · intro h
    refine ⟨?_, hagree⟩
    rcases x with ⟨a | a, hx⟩
    · exact bpMathPow_word n
    · have hn : n ≠ 0 := h.resolve_left (not_in1W_of_canon hx)
      obtain ⟨t, ht, hd⟩ := bpPowBigintInt_denotes (isBigint_of_canon hx) (ne_zero_of_canon hx) (Nat.pos_of_ne_zero hn)
      refine ⟨t, ?_, hd⟩
      rw [bpMathPow, if_pos (by omega), Int.toNat_natCast, ht]
      rfl

/-- `(2^56) ** 0` is a float. -/
theorem bpMathPow_two_pow_56_zero : ¬ ∀ (x : Number) (n : Nat), bpIn1WIntRange n → PowMeets x n := by
  intro h
  obtain ⟨t, ht, -⟩ := (h ⟨.bigint ⟨3, [0, 0, 1]⟩, by unfold Term.Canon Valid Stripped; decide⟩ 0 (by decide)).value
  have h0 : bpMathPow (.bigint ⟨3, [0, 0, 1]⟩) (.int (0 : Nat)) = .floatPow (.bigint ⟨3, [0, 0, 1]⟩) (.int 0) := rfl
  rw [h0] at ht
  cases ht

end Picat
