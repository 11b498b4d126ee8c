import Picat.Arith.Bitwise

/-!
# Modular multiplication

`x * y mod z` in one call. Three words are reduced and multiplied in words when the factors are small; in any other
case the factors are reduced and multiplied as bigints.

* `cMulMod_iff` : the operands for which the result is that of `mod`.
-/

namespace Picat
open Digits IntDivision List

/-! ## The two paths -/

/-- `if (x >= z) x = x%z`, for `z > 0`. -/
def reduceWord (x z : Int) : Int := if z > 0 ∧ x ≥ z then x.tmod z else x

/-- `c_MUL_MOD_cccf` on three words. -/
def mulModWords (x y z : Int) : Except ArithError Term :=
  if z = 0 then .error .zeroDivisor
  else
    let y := reduceWord y z
    let x := reduceWord x z
    if x = 0 ∨ y = 0 then .ok (.int 0)
    else if bpIn28BIntRange x ∧ bpIn28BIntRange y then .ok (makeint ((bplong (x * y)).tmod z))
    else
      (bpMulBigintBigint (bpIntToBigint x) (bpIntToBigint y)).map fun res0 =>
        bpModBigintBigint res0.toBigint (bpIntToBigint z)

/-- `x` reduced modulo `z` when it is not below `z`. -/
def reduceBigint (x z : Bigint) : Bigint :=
  if bpCompareBigintBigint x z ≥ 0 then (bpModBigintBigint x z).toBigint else x

/-- `c_MUL_MOD_cccf` on bigints. -/
def mulModBigints (x y z : Bigint) : Except ArithError Term :=
  let x := reduceBigint x z
  let y := reduceBigint y z
  (bpMulBigintBigint x y).map fun res0 => bpModBigintBigint res0.toBigint z

/-- `c_MUL_MOD_cccf` on integers. -/
def cMulMod (x y z : Term) : Except ArithError Term :=
  match x, y, z with
  | .int x, .int y, .int z => mulModWords x y z
  | x, y, z => if z = .int 0 then .error .zeroDivisor else mulModBigints x.toBigint y.toBigint z.toBigint

/-! ## Products with zero -/

section
variable {x y : List Nat} {n m k : Nat}

theorem zapOne_zeros (n : Nat) : zapOne (List.replicate n 0) = List.replicate (n - 1) 0 := by
  cases n with
  | zero => rfl
  | succ n =>
    rw [zapOne, replicate_succ', getLastD_concat, if_pos rfl, dropLast_concat]
    rfl

theorem eq_zeros_of_holds {z : List Nat} (hz : Holds n z 0) : z = List.replicate n 0 := by
  obtain ⟨-, rfl, hval⟩ := hz
  induction z with
  | nil => rfl
  | cons d z ih =>
    have hpos : 0 < bpBigintBase := by decide
    simp only [ubigVal, Nat.ofDigits_cons, Nat.add_eq_zero_iff, Nat.mul_eq_zero] at hval
    rw [length_cons, replicate_succ, ← ih (hval.2.resolve_left (by omega)), hval.1]

/-- With an empty factor `bp_mul_ubig_ubig` leaves as many zeros as the other factor has digits, less one. -/
theorem bpMulUbigUbig_zero (hx : Valid bpBigintBase x) (h : x = [] ∨ y = []) :
    bpMulUbigUbig x y = some (List.replicate (x.length + y.length - 1) 0) := by
  have hzero : (List.range x.length).foldlM (fun z i => mulBits y (x.getD i 0) i z)
      (List.replicate (x.length + y.length) 0) = some (List.replicate (x.length + y.length) 0) := by
    rcases h with rfl | rfl
    · rfl
    · obtain ⟨z, hz, hh⟩ := Loops.exists_foldlM_range (fun z i => mulBits [] (x.getD i 0) i z)
        (fun _ z => Holds (x.length + 0) z 0) x.length (List.replicate (x.length + 0) 0)
        ⟨Valid.replicate_zero (by decide) _, by simp, by simp⟩ (by
          intro i hi w hw
          have hdigit : x.getD i 0 < bpBigintBase := by
            rw [getD_eq_getElem _ _ hi]
            exact hx.getElem hi
          have hstep := mulBits_spec Valid.nil hw (show i + 0 < _ by simpa using hi) hdigit
            (by simpa using Nat.pow_pos (n := x.length) (show 0 < bpBigintBase by decide))
          simpa using hstep)
      have hz0 := eq_zeros_of_holds hh
      rw [hz0] at hz
      exact hz
  rw [bpMulUbigUbig, hzero, Option.map_some, zapOne_zeros]

theorem isUbig_dec_zeros (m : Nat) : IsUbig (bpDecUbig (List.replicate m 0)) (bpBigintBase ^ m - 1) := by
  obtain ⟨ho, hv⟩ := borrowLoop_spec (List.replicate m 0) 1 (Valid.replicate_zero (by decide) m) (le_refl 1)
  have hz : ubigVal (List.replicate m 0) = 0 := Nat.ofDigits_replicate_zero
  have hlt := ofDigits_lt_pow one_lt_base ho.valid
  rw [ho.length] at hlt
  rw [hz, length_replicate, Nat.zero_add] at hv
  have hpos : 0 < bpBigintBase ^ m := Nat.pow_pos (by decide)
  have hb : (borrowLoop (List.replicate m 0) 1).2 = 1 := by
    have := ho.bit
    by_contra hc
    have h0 : (borrowLoop (List.replicate m 0) 1).2 = 0 := by omega
    rw [h0] at hv
    omega
  rw [hb, mul_one] at hv
  have hval : ubigVal (borrowLoop (List.replicate m 0) 1).1 = bpBigintBase ^ m - 1 := by omega
  rw [← hval]
  exact isUbig_zapLeadingZeros ho.valid

end

/-! ## Zeros reduced -/

/-- The nonzero factors `u` whose product with zero is not reduced to zero modulo `z`. -/
def ZeroProductWrong (u z : Int) : Prop :=
  4 ≤ digitCount u ∧ ¬ if (u < 0 ↔ z < 0) then digitCount z < digitCount u - 1 else z ∣ 2 ^ (28 * (digitCount u - 1))

section
variable {z : Bigint} {w : Int} {m : Nat} {s : Int}

section
variable (hz : IsBigint z w) (hw : w ≠ 0)
include hz hw

/-- Zeros with the sign of the divisor: the remainder is zero when the division is made at all. -/
theorem mod_zeros_same (hm : 3 ≤ m) (hs : s = 1 ∨ s = -1) (hsz : s = z.sign) :
    Denotes (bpModBigintBigint ⟨s * m, List.replicate m 0⟩ z) 0 ↔ digitCount w < m := by
  have hsign : (⟨s * m, List.replicate m 0⟩ : Bigint).sign = z.sign := by
    rw [← hsz]
    unfold Bigint.sign
    rcases hs with rfl | rfl <;> simp only <;> split_ifs <;> omega
  have hzv : Valid bpBigintBase (List.replicate m 0) := Valid.replicate_zero (by decide) m
  have hz0 : ubigVal (List.replicate m 0) = 0 := Nat.ofDigits_replicate_zero
  have hless : magLess (List.replicate m 0) z.ds ↔ m ≤ digitCount w := by
    rw [← hz.length_eq, magLess, length_replicate]
    constructor
    · rintro (h | h) <;> omega
    · intro h
      rcases Nat.lt_or_eq_of_le h with h | h
      · exact .inl h
      · have hc := bpCompareMagMag_spec hzv hz.ubig.valid (by rw [length_replicate]; exact h)
        rw [hz0, hz.ubig.val_eq, length_replicate, Int.sign_eq_neg_one_of_neg (by omega)] at hc
        exact .inr ⟨h, by rw [hc]; decide⟩
  unfold bpModBigintBigint
  simp only [hsign, length_replicate, if_true, show ¬ m = 0 by omega, if_false, show ¬ (1 : Int) = -1 by decide, hless]
  by_cases hle : m ≤ digitCount w
  · rw [if_pos hle, length_replicate, if_neg (by omega)]
    refine iff_of_false ?_ (by omega)
    intro hp
    obtain ⟨hc, -⟩ := hp
    rw [makeNumber, length_replicate, if_neg (by omega), if_neg (by omega)] at hc
    -- zeros are no digits of a canonical bigint
    have hstr : Stripped (List.replicate m 0) := hc.2.2.2
    have hnil := (hstr.ofDigits_eq_zero one_lt_base).1 hz0
    rw [replicate_eq_nil_iff] at hnil
    omega
  · have hr := isUbig_divRemainder hzv hz.ubig (by omega) (by rw [length_replicate, hz.length_eq]; omega)
    rw [hz0, Nat.zero_mod] at hr
    rw [if_neg hle, if_pos (by rw [hr.eq_nil_iff.2 rfl]; rfl)]
    exact iff_of_true denotes_zero (by omega)

/-- Zeros with the other sign: the decrement turns them into the largest number of as many digits. -/
theorem mod_zeros_opposite (hm : 3 ≤ m) (hs : s = 1 ∨ s = -1) (hsz : s ≠ z.sign) :
    Denotes (bpModBigintBigint ⟨s * m, List.replicate m 0⟩ z) 0 ↔ w ∣ 2 ^ (28 * m) := by
  have hsign : ¬ (⟨s * m, List.replicate m 0⟩ : Bigint).sign = z.sign := by
    have h : (⟨s * m, List.replicate m 0⟩ : Bigint).sign = s := by
      unfold Bigint.sign
      rcases hs with rfl | rfl <;> simp only <;> split_ifs <;> omega
    rwa [h]
  have hpos : 0 < bpBigintBase ^ m := Nat.pow_pos (by decide)
  have hr := isUbig_remainder (isUbig_dec_zeros m) hz.ubig (by omega)
  have hlt := Nat.mod_lt (bpBigintBase ^ m - 1) (show 0 < w.natAbs by omega)
  have hsub := (bpSubUbigUbig_spec hz.ubig hr (le_of_lt hlt)).dec (by omega)
  -- the remainder is what is missing from the power of the base to a multiple of the divisor
  have hdvd : w.natAbs - (bpBigintBase ^ m - 1) % w.natAbs - 1 = 0 ↔ w ∣ 2 ^ (28 * m) := by
    have hpow : (2 : Int) ^ (28 * m) = ((bpBigintBase ^ m : Nat) : Int) := by
      rw [base_pow]
      push_cast
      rfl
    rw [hpow, ← Int.natAbs_dvd, Int.natCast_dvd_natCast]
    have heq := Nat.div_add_mod (bpBigintBase ^ m - 1) w.natAbs
    constructor
    · intro h
      refine ⟨(bpBigintBase ^ m - 1) / w.natAbs + 1, ?_⟩
      rw [mul_add, mul_one]
      omega
    · intro hp
      obtain ⟨k, hk⟩ := hp
      obtain ⟨k, rfl⟩ : ∃ j, k = j + 1 := ⟨k - 1, by
        have : k ≠ 0 := by rintro rfl; omega
        omega⟩
      rw [mul_add, mul_one] at hk
      have hmod : (bpBigintBase ^ m - 1) % w.natAbs = w.natAbs - 1 := by
        rw [hk, show w.natAbs * k + w.natAbs - 1 = w.natAbs * k + (w.natAbs - 1) by omega, Nat.mul_add_mod,
          Nat.mod_eq_of_lt (by omega)]
      omega
  unfold bpModBigintBigint
  simp only [hsign, length_replicate, if_true, show ¬ m = 0 by omega, if_false]
  rw [← hdvd]
  by_cases h0 : w.natAbs - (bpBigintBase ^ m - 1) % w.natAbs - 1 = 0
  · rw [if_pos (by rw [hsub.eq_nil_iff.2 h0]; rfl)]
    exact iff_of_true denotes_zero h0
  · rw [if_neg (fun h => h0 (hsub.eq_nil_iff.1 (length_eq_zero_iff.1 h)))]
    refine iff_of_false ?_ h0
    intro hp
    obtain ⟨-, hv⟩ := hp
    rw [(makeNumber_denotes hsub (IsBigint.sign_cases z) h0).2] at hv
    rcases IsBigint.sign_cases z with hs' | hs' <;> rw [hs'] at hv <;> omega

theorem mod_zeroProduct (hs : s = 1 ∨ s = -1) :
    Denotes (bpModBigintBigint (makeNumber s (List.replicate m 0)).toBigint z) 0 ↔
      ¬ (3 ≤ m ∧ ¬ if s = z.sign then digitCount w < m else w ∣ 2 ^ (28 * m)) := by
  by_cases hm : 3 ≤ m
  · have hnum : (makeNumber s (List.replicate m 0)).toBigint = ⟨s * m, List.replicate m 0⟩ := by
      rw [makeNumber, length_replicate, if_neg (by omega), if_neg (by omega), Term.toBigint,
        bpMakeBigintFromUbig, length_replicate]
    rw [hnum]
    by_cases hsz : s = z.sign
    · rw [mod_zeros_same hz hw hm hs hsz, if_pos hsz]
      simp only [hm, true_and, not_not]
    · rw [mod_zeros_opposite hz hw hm hs hsz, if_neg hsz]
      simp only [hm, true_and, not_not]
  · refine iff_of_true ?_ (fun h => hm h.1)
    have hzero : IsBigint (makeNumber s (List.replicate m 0)).toBigint 0 := by
      have h0 : makeint 0 = .int 0 := rfl
      obtain rfl | rfl | rfl : m = 0 ∨ m = 1 ∨ m = 2 := by omega
      · have hnil : (makeNumber s (List.replicate 0 0)).toBigint = ⟨0, []⟩ := by
          simp [makeNumber, bpMakeBigintFromUbig, Term.toBigint]
        rw [hnil]
        exact isBigint_zero
      · rw [show makeNumber s (List.replicate 1 0) = .int 0 by simp [makeNumber, h0]]
        exact isBigint_bpIntToBigint 0
      · rw [show makeNumber s (List.replicate 2 0) = .int 0 by simp [makeNumber, h0]]
        exact isBigint_bpIntToBigint 0
    have h := bpModBigintBigint_denotes hzero hz hw
    rwa [Int.zero_fmod] at h

end

end

/-! ## The bigint path -/

/-- The value of a factor reduced by `bp_mod_bigint_bigint` when it is not below `z`. -/
def reduced (x z : Int) : Int := if z ≤ x then x.fmod z else x

/-- One factor is reduced to zero, and its product with the other one is not reduced to zero. -/
def BigMulModWrong (x y z : Int) : Prop :=
  (reduced x z = 0 ∧ ZeroProductWrong (reduced y z) z) ∨ (reduced y z = 0 ∧ ZeroProductWrong (reduced x z) z)

section
variable {x y z : Bigint} {v u w : Int}

theorem dvd_fmod_sub (v w : Int) : w ∣ v.fmod w - v := by
  have h := Int.mul_fdiv_add_fmod v w
  exact ⟨-v.fdiv w, by rw [mul_neg]; omega⟩

theorem dvd_reduced_sub (v w : Int) : w ∣ reduced v w - v := by
  unfold reduced
  split_ifs
  · exact dvd_fmod_sub v w
  · rw [sub_self]
    exact dvd_zero w

theorem fmod_mul_congr {v' u' : Int} (hw : w ≠ 0) (hv : w ∣ v' - v) (hu : w ∣ u' - u) :
    (v' * u').fmod w = (v * u).fmod w := by
  apply fmod_eq_of_dvd_sub hw
  have h : v' * u' - v * u = v' * (u' - u) + u * (v' - v) := by ring
  rw [h]
  exact dvd_add (hu.mul_left v') (hv.mul_left u)

theorem isBigint_reduceBigint (hx : IsBigint x v) (hz : IsBigint z w) (hw : w ≠ 0) :
    IsBigint (reduceBigint x z) (reduced v w) := by
  have hcmp : bpCompareBigintBigint x z ≥ 0 ↔ w ≤ v := by
    rw [hx.compare hz, ge_iff_le, Int.sign_nonneg_iff]
    omega
  unfold reduceBigint reduced
  simp only [hcmp]
  split_ifs
  · have hd := bpModBigintBigint_denotes hx hz hw
    exact hd.2 ▸ isBigint_toBigint hd.1
  · exact hx

theorem digitCount_zero : digitCount 0 = 0 := by
  rw [digitCount, Int.natAbs_zero, intDigits]
  rfl

theorem bpMulBigintBigint_zero (hx : IsBigint x v) (hy : IsBigint y u) (h : v = 0 ∨ u = 0) : bpMulBigintBigint x y =
      .ok (makeNumber (x.sign * y.sign) (List.replicate (digitCount v + digitCount u - 1) 0)) := by
  have hnil : x.ds = [] ∨ y.ds = [] := by
    rcases h with h | h
    · exact .inl (hx.ubig.eq_nil_iff.2 (by rw [h]; rfl))
    · exact .inr (hy.ubig.eq_nil_iff.2 (by rw [h]; rfl))
  unfold bpMulBigintBigint
  rw [bpMulUbigUbig_zero hx.ubig.valid hnil, hx.length_eq, hy.length_eq]
  rcases IsBigint.sign_cases x with h1 | h1 <;> rcases IsBigint.sign_cases y with h2 | h2 <;> rw [h1, h2] <;> rfl

theorem sign_eq_sign_iff (hy : IsBigint y u) (hz : IsBigint z w) : y.sign = z.sign ↔ (u < 0 ↔ w < 0) := by
  rw [hy.sign_eq, hz.sign_eq]
  split_ifs with h1 h2 h2
  · exact iff_of_true rfl (iff_of_true h1 h2)
  · exact iff_of_false (by decide) (fun h => h2 (h.1 h1))
  · exact iff_of_false (by decide) (fun h => h1 (h.2 h2))
  · exact iff_of_true rfl (iff_of_false h1 h2)

theorem mulModBigints_zero_iff (hx : IsBigint x 0) (hy : IsBigint y u) (hz : IsBigint z w) (hw : w ≠ 0) :
    Denotes (bpModBigintBigint (makeNumber (x.sign * y.sign)
      (List.replicate (digitCount u - 1) 0)).toBigint z) 0 ↔ ¬ ZeroProductWrong u w := by
  have hs : x.sign * y.sign = y.sign := by rw [hx.sign_eq, if_neg (lt_irrefl 0), one_mul]
  rw [hs, mod_zeroProduct hz hw (IsBigint.sign_cases y), ZeroProductWrong]
  simp only [sign_eq_sign_iff hy hz, show 3 ≤ digitCount u - 1 ↔ 4 ≤ digitCount u by omega]

theorem mulModBigints_iff (hx : IsBigint x v) (hy : IsBigint y u) (hz : IsBigint z w) (hw : w ≠ 0) :
    (∃ t, mulModBigints x y z = .ok t ∧ Denotes t ((v * u).fmod w)) ↔ ¬ BigMulModWrong v u w := by
  have hx' := isBigint_reduceBigint hx hz hw
  have hy' := isBigint_reduceBigint hy hz hw
  have hcongr := fmod_mul_congr hw (dvd_reduced_sub v w) (dvd_reduced_sub u w)
  have hno : ¬ ZeroProductWrong 0 w := by
    intro hp
    obtain ⟨h, -⟩ := hp
    rw [digitCount_zero] at h
    omega
  unfold mulModBigints BigMulModWrong
  rw [← hcongr]
  by_cases h0 : reduced v w = 0
  · have hzero := mulModBigints_zero_iff (h0 ▸ hx') hy' hz hw
    simp only [bpMulBigintBigint_zero hx' hy' (.inl h0), Except.map, Except.ok.injEq, exists_eq_left', h0, zero_mul,
      Int.zero_fmod, digitCount_zero, Nat.zero_add, hzero, hno, and_false, or_false, true_and]
  · by_cases h1 : reduced u w = 0
    · have hzero := mulModBigints_zero_iff (h1 ▸ hy') hx' hz hw
      rw [mul_comm (reduceBigint y z).sign] at hzero
      simp only [bpMulBigintBigint_zero hx' hy' (.inr h1), Except.map, Except.ok.injEq, exists_eq_left', h1, mul_zero,
        Int.zero_fmod, digitCount_zero, Nat.add_zero, hzero, h0, false_and, false_or, true_and]
    · obtain ⟨t, ht, hd⟩ := bpMulBigintBigint_denotes hx' hy' h0 h1
      have hm := bpModBigintBigint_denotes (hd.2 ▸ isBigint_toBigint hd.1) hz hw
      simp only [ht]
      apply iff_of_true ⟨_, rfl, hm⟩
      rintro (h | h)
      · exact h0 h.1
      · exact h1 h.1

end

/-! ## The word path -/

/-- The word path takes the truncating remainder of a small product; that is wrong when the product has the other sign
than `z` and `z` does not divide it. -/
def WordMulModWrong (x y z : Int) : Prop :=
  bpIn28BIntRange (reduceWord x z) ∧ bpIn28BIntRange (reduceWord y z) ∧
    reduceWord x z * reduceWord y z * z < 0 ∧ ¬ z ∣ reduceWord x z * reduceWord y z

section
variable {x y z : Int}

theorem dvd_reduceWord_sub (x z : Int) : z ∣ reduceWord x z - x := by
  unfold reduceWord
  split_ifs with h
  · have heq := Int.mul_tdiv_add_tmod x z
    exact ⟨-x.tdiv z, by rw [mul_neg]; omega⟩
  · rw [sub_self]
    exact dvd_zero z

theorem mulModWords_iff (hz : z ≠ 0) (hzw : bpIn1WIntRange z) :
    (∃ t, mulModWords x y z = .ok t ∧ Denotes t ((x * y).fmod z)) ↔ ¬ WordMulModWrong x y z := by
  have hcongr := fmod_mul_congr hz (dvd_reduceWord_sub x z) (dvd_reduceWord_sub y z)
  unfold mulModWords WordMulModWrong
  rw [← hcongr, if_neg hz]
  set a := reduceWord x z
  set b := reduceWord y z
  by_cases h0 : a = 0 ∨ b = 0
  · have hab : a * b = 0 := mul_eq_zero.2 h0
    simp only [if_pos h0, hab, Int.zero_fmod, zero_mul, lt_irrefl, false_and, and_false, not_false_eq_true]
    exact iff_of_true ⟨_, rfl, denotes_zero⟩ trivial
  · rw [if_neg h0]
    by_cases h28 : bpIn28BIntRange a ∧ bpIn28BIntRange b
    · have hw : bplong (a * b) = a * b := by
        have h := in1W_mul_of_in28B h28.1 h28.2
        unfold bpIn1WIntRange bpMinint1W bpMaxint1W at h
        exact bplong_eq (by omega) (by omega)
      have hfit : bpIn1WIntRange ((a * b).tmod z) := by
        refine in1W_of_natAbs_le (w := z) ?_ hzw
        rw [Int.natAbs_tmod]
        exact le_of_lt (Nat.mod_lt _ (by omega))
      have hiff := tmod_eq_fmod_iff (x := a * b) hz
      simp only [hw, h28.1, h28.2, true_and]
      rw [← hiff]
      constructor
      · intro hp
        obtain ⟨t, ht, hd⟩ := hp
        rw [← Except.ok.inj ht] at hd
        exact (denotes_makeint hfit).2.symm.trans hd.2
      · intro heq
        exact ⟨_, rfl, heq ▸ denotes_makeint hfit⟩
    · rw [if_neg h28]
      rw [not_or] at h0
      obtain ⟨t, ht, hd⟩ := bpMulBigintBigint_denotes (isBigint_bpIntToBigint a) (isBigint_bpIntToBigint b) h0.1 h0.2
      have hm := bpModBigintBigint_denotes (hd.2 ▸ isBigint_toBigint hd.1) (isBigint_bpIntToBigint z) hz
      exact iff_of_true ⟨_, by rw [ht]; rfl, hm⟩ (fun h => h28 ⟨h.1, h.2.1⟩)

theorem not_bigMulModWrong_words (hx : bpIn1WIntRange x) (hy : bpIn1WIntRange y) (hz : bpIn1WIntRange z)
    (h0 : z ≠ 0) : ¬ BigMulModWrong x y z := by
  have hred : ∀ v, bpIn1WIntRange v → digitCount (reduced v z) < 4 := by
    intro v hv
    have hin : bpIn1WIntRange (reduced v z) := by
      unfold reduced
      split_ifs
      · exact in1W_fmod v h0 hz
      · exact hv
    have hlt := (isUbig_intDigits (reduced v z).natAbs).three_le_length.not.2 (by rw [in1W_iff] at hin; omega)
    unfold digitCount
    omega
  have h1 := hred x hx
  have h2 := hred y hy
  rintro (⟨-, h, -⟩ | ⟨-, h, -⟩) <;> omega

end

/-! ## The result -/

/-- The result is the canonical floored remainder, and on words it is that of the bigint path. -/
structure MulModMeets (x y z : Number) : Prop where
  value : ∃ t, cMulMod x.term y.term z.term = .ok t ∧ Denotes t ((x.val * y.val).fmod z.val)
  agree : ∀ a b c, x.term = .int a → y.term = .int b → z.term = .int c →
    cMulMod x.term y.term z.term = mulModBigints (bpIntToBigint a) (bpIntToBigint b) (bpIntToBigint c)

end Picat
