import Picat.Bigint.Term

/-!
# Addition, subtraction and multiplication

`bp_math_add`, `bp_math_sub` and `bp_math_mul` on integer operands, and the `bigint.c` functions they call.

* `bpMath_add_sub_mul_exact` : the three results are exact and canonical on every path.
-/

namespace Picat
open Digits

/-- How an operation on integers stops without a result. -/
inductive ArithError
  | zeroDivisor
  | outOfBounds
deriving DecidableEq, Repr

/-! ## Sign and magnitude -/

/-- `xsign * x + ysign * y`: add the magnitudes when the signs agree, else subtract the smaller one. -/
def addSigned (xsign : Int) (x : List Nat) (ysign : Int) (y : List Nat) : Term :=
  if xsign > 0 ∧ ysign > 0 then makeNumber 1 (bpAddUbigUbig x y)
  else if xsign < 0 ∧ ysign < 0 then makeNumber (-1) (bpAddUbigUbig x y)
  else if x.length > y.length then makeNumber xsign (bpSubUbigUbig x y)
  else if x.length < y.length then makeNumber ysign (bpSubUbigUbig y x)
  else
    let compRes := bpCompareMagMag x.length x y
    if compRes = 0 then .int 0
    else if compRes > 0 then makeNumber xsign (bpSubUbigUbig x y)
    else makeNumber ysign (bpSubUbigUbig y x)

def bpAddBigintBigint (op1 op2 : Bigint) : Term := addSigned op1.sign op1.ds op2.sign op2.ds

def bpSubBigintBigint (op1 op2 : Bigint) : Term := addSigned op1.sign op1.ds (-1 * op2.sign) op2.ds

def bpMulBigintBigint (op1 op2 : Bigint) : Except ArithError Term :=
  let zsign : Int :=
    if op1.sign > 0 then (if op2.sign > 0 then 1 else -1) else (if op2.sign > 0 then -1 else 1)
  match bpMulUbigUbig op1.ds op2.ds with
  | some z => .ok (makeNumber zsign z)
  | none => .error .outOfBounds

section
variable {x y : List Nat} {a b : Nat}

theorem makeNumber_sub_denotes {sign : Int} (hx : IsUbig x a) (hy : IsUbig y b)
    (hs : sign = 1 ∨ sign = -1) (h : b < a) :
    Denotes (makeNumber sign (bpSubUbigUbig x y)) (sign * a - sign * b) := by
  have hz := makeNumber_denotes (bpSubUbigUbig_spec hx hy (le_of_lt h)) hs (by omega)
  rwa [Int.natCast_sub (le_of_lt h), mul_sub] at hz

theorem addSigned_denotes {xsign ysign : Int} (hx : IsUbig x a) (hy : IsUbig y b)
    (hxs : xsign = 1 ∨ xsign = -1) (hys : ysign = 1 ∨ ysign = -1) (hne : a ≠ 0 ∨ b ≠ 0) :
    Denotes (addSigned xsign x ysign y) (xsign * a + ysign * b) := by
  have hadd := bpAddUbigUbig_spec hx hy
  unfold addSigned
  split_ifs with h1 h2 h3 h4
  · have hz := makeNumber_denotes hadd (.inl rfl) (by omega)
    obtain rfl : xsign = 1 := by omega
    obtain rfl : ysign = 1 := by omega
    rwa [Int.natCast_add, mul_add] at hz
  · have hz := makeNumber_denotes hadd (.inr rfl) (by omega)
    obtain rfl : xsign = -1 := by omega
    obtain rfl : ysign = -1 := by omega
    rwa [Int.natCast_add, mul_add] at hz
  all_goals have hopp : ysign = -xsign := by omega
  · -- the longer operand has the larger magnitude, and its sign
    have hlt : b < a := by
      by_contra hc
      have := hx.length_le hy (by omega)
      omega
    have hz := makeNumber_sub_denotes hx hy hxs hlt
    rwa [show xsign * (a : Int) - xsign * b = xsign * a + ysign * b by rw [hopp]; ring] at hz
  · have hlt : a < b := by
      by_contra hc
      have := hy.length_le hx (by omega)
      omega
    have hz := makeNumber_sub_denotes hy hx hys hlt
    rwa [show ysign * (b : Int) - ysign * a = xsign * a + ysign * b by rw [hopp]; ring] at hz
  · have hcmp := bpCompareMagMag_spec hx.valid hy.valid (by omega)
    rw [hx.val_eq, hy.val_eq] at hcmp
    simp only [hcmp]
    split_ifs with h5 h6
    · have hab : (a : Int) = b := by
        have := Int.sign_eq_zero_iff_zero.1 h5
        omega
      rw [hab, hopp, show xsign * (b : Int) + -xsign * b = 0 by ring]
      exact denotes_zero
    · have hlt : b < a := by
        have := Int.sign_pos_iff.1 h6
        omega
      have hz := makeNumber_sub_denotes hx hy hxs hlt
      rwa [show xsign * (a : Int) - xsign * b = xsign * a + ysign * b by rw [hopp]; ring] at hz
    · have hlt : a < b := by
        have : ¬ 0 < (a : Int) - b := fun h => h6 (Int.sign_pos_iff.2 h)
        have : (a : Int) - b ≠ 0 := fun h => h5 (Int.sign_eq_zero_iff_zero.2 h)
        omega
      have hz := makeNumber_sub_denotes hy hx hys hlt
      rwa [show ysign * (b : Int) - ysign * a = xsign * a + ysign * b by rw [hopp]; ring] at hz

end

section
variable {op1 op2 : Bigint} {v w : Int}

section
variable (h1 : IsBigint op1 v) (h2 : IsBigint op2 w)
include h1 h2

theorem bpAddBigintBigint_denotes (hne : v ≠ 0 ∨ w ≠ 0) : Denotes (bpAddBigintBigint op1 op2) (v + w) := by
  have h := addSigned_denotes h1.ubig h2.ubig (IsBigint.sign_cases op1) (IsBigint.sign_cases op2) (by omega)
  rwa [h1.val_eq, h2.val_eq] at h

theorem bpSubBigintBigint_denotes (hne : v ≠ 0 ∨ w ≠ 0) : Denotes (bpSubBigintBigint op1 op2) (v - w) := by
  have hs := IsBigint.sign_cases op2
  have h := addSigned_denotes h1.ubig h2.ubig (IsBigint.sign_cases op1)
    (show -1 * op2.sign = 1 ∨ -1 * op2.sign = -1 by omega) (by omega)
  rwa [h1.val_eq, mul_assoc, h2.val_eq, show v + -1 * w = v - w by ring] at h

theorem bpMulBigintBigint_denotes (hv : v ≠ 0) (hw : w ≠ 0) :
    ∃ t, bpMulBigintBigint op1 op2 = .ok t ∧ Denotes t (v * w) := by
  obtain ⟨z, hz, hub⟩ := bpMulUbigUbig_spec h1.ubig h2.ubig (by omega) (by omega)
  have hprod : op1.sign * op2.sign * ((v.natAbs * w.natAbs : Nat) : Int) = v * w := by
    rw [Int.natCast_mul]
    calc op1.sign * op2.sign * ((v.natAbs : Int) * w.natAbs) = (op1.sign * v.natAbs) * (op2.sign * w.natAbs) := by ring
      _ = v * w := by rw [h1.val_eq, h2.val_eq]
  have hm : v.natAbs * w.natAbs ≠ 0 := Nat.mul_ne_zero (by omega) (by omega)
  unfold bpMulBigintBigint
  rw [hz]
  refine ⟨_, rfl, ?_⟩
  rw [← hprod]
  rcases IsBigint.sign_cases op1 with hs1 | hs1 <;> rcases IsBigint.sign_cases op2 with hs2 | hs2 <;>
    rw [hs1, hs2]
  · exact makeNumber_denotes hub (.inl rfl) hm
  · exact makeNumber_denotes hub (.inr rfl) hm
  · exact makeNumber_denotes hub (.inr rfl) hm
  · exact makeNumber_denotes hub (.inl rfl) hm

end

end

/-! ## The operators -/

/-- `bp_math_add` on integers. -/
def bpMathAdd : Term → Term → Term
  | .int op1, .int op2 =>
    let op1 := bplong (op1 + op2)
    if bpIn1WIntRange op1 then makeint op1 else .bigint (bpIntToBigint op1)
  | .int op1, .bigint op2 => bpAddBigintBigint (bpIntToBigint op1) op2
  | .bigint op1, .int op2 => bpAddBigintBigint op1 (bpIntToBigint op2)
  | .bigint op1, .bigint op2 => bpAddBigintBigint op1 op2

/-- `bp_math_sub` on integers. -/
def bpMathSub : Term → Term → Term
  | .int op1, .int op2 =>
    let op1 := bplong (op1 - op2)
    if bpIn1WIntRange op1 then makeint op1 else .bigint (bpIntToBigint op1)
  | .int op1, .bigint op2 => bpSubBigintBigint (bpIntToBigint op1) op2
  | .bigint op1, .int op2 => bpSubBigintBigint op1 (bpIntToBigint op2)
  | .bigint op1, .bigint op2 => bpSubBigintBigint op1 op2

/-- `bp_math_mul` on integers. -/
def bpMathMul : Term → Term → Except ArithError Term
  | .int op1, .int op2 =>
    if bpIn28BIntRange op1 ∧ bpIn28BIntRange op2 then .ok (makeint (bplong (op1 * op2)))
    else if op1 = 0 ∨ op2 = 0 then .ok (.int 0)
    else bpMulBigintBigint (bpIntToBigint op1) (bpIntToBigint op2)
  | .int op1, .bigint op2 =>
    if op1 = 0 then .ok (.int 0) else bpMulBigintBigint (bpIntToBigint op1) op2
  | .bigint op1, .int op2 =>
    if op2 = 0 then .ok (.int 0) else bpMulBigintBigint op1 (bpIntToBigint op2)
  | .bigint op1, .bigint op2 => bpMulBigintBigint op1 op2

theorem ne_zero_of_canon {b : Bigint} (h : (Term.bigint b).Canon) : (Term.bigint b).val ≠ 0 := by
  intro h0
  apply not_in1W_of_canon h
  rw [h0]
  decide

theorem bplong_eq_of_in1W {op1 op2 : Int} (h1 : bpIn1WIntRange op1) (h2 : bpIn1WIntRange op2) :
    bplong (op1 + op2) = op1 + op2 ∧ bplong (op1 - op2) = op1 - op2 := by
  unfold bpIn1WIntRange bpMinint1W bpMaxint1W at h1 h2
  exact ⟨bplong_eq (by omega) (by omega), bplong_eq (by omega) (by omega)⟩

theorem bpMathAdd_denotes (x y : Number) : Denotes (bpMathAdd x.term y.term) (x.val + y.val) := by
  rcases x with ⟨_ | a, hx⟩ <;> rcases y with ⟨_ | b, hy⟩ <;> simp only [bpMathAdd, Number.val]
  · rw [(bplong_eq_of_in1W hx hy).1]
    exact denotes_word _
  · exact bpAddBigintBigint_denotes (isBigint_bpIntToBigint _) (isBigint_of_canon hy) (.inr (ne_zero_of_canon hy))
  · exact bpAddBigintBigint_denotes (isBigint_of_canon hx) (isBigint_bpIntToBigint _) (.inl (ne_zero_of_canon hx))
  · exact bpAddBigintBigint_denotes (isBigint_of_canon hx) (isBigint_of_canon hy) (.inl (ne_zero_of_canon hx))

theorem bpMathSub_denotes (x y : Number) : Denotes (bpMathSub x.term y.term) (x.val - y.val) := by
  rcases x with ⟨_ | a, hx⟩ <;> rcases y with ⟨_ | b, hy⟩ <;> simp only [bpMathSub, Number.val]
  · rw [(bplong_eq_of_in1W hx hy).2]
    exact denotes_word _
  · exact bpSubBigintBigint_denotes (isBigint_bpIntToBigint _) (isBigint_of_canon hy) (.inr (ne_zero_of_canon hy))
  · exact bpSubBigintBigint_denotes (isBigint_of_canon hx) (isBigint_bpIntToBigint _) (.inl (ne_zero_of_canon hx))
  · exact bpSubBigintBigint_denotes (isBigint_of_canon hx) (isBigint_of_canon hy) (.inl (ne_zero_of_canon hx))

theorem in1W_mul_of_in28B {a b : Int} (ha : bpIn28BIntRange a) (hb : bpIn28BIntRange b) : bpIn1WIntRange (a * b) := by
  unfold bpIn28BIntRange at ha hb
  have h := Nat.mul_le_mul (show a.natAbs ≤ 2 ^ 28 - 1 by omega) (show b.natAbs ≤ 2 ^ 28 - 1 by omega)
  rw [in1W_iff, Int.natAbs_mul]
  omega

theorem bpMathMul_denotes (x y : Number) : ∃ t, bpMathMul x.term y.term = .ok t ∧ Denotes t (x.val * y.val) := by
  rcases x with ⟨a | a, hx⟩ <;> rcases y with ⟨b | b, hy⟩ <;> simp only [bpMathMul, Number.val]
  · split_ifs with h1 h2
    · have h := in1W_mul_of_in28B h1.1 h1.2
      have hw : bplong (a * b) = a * b := by
        unfold bpIn1WIntRange bpMinint1W bpMaxint1W at h
        exact bplong_eq (by omega) (by omega)
      exact ⟨_, rfl, by rw [hw]; exact denotes_makeint h⟩
    · refine ⟨_, rfl, ?_⟩
      rw [show Term.val (.int a) * Term.val (.int b) = 0 from mul_eq_zero.2 h2]
      exact denotes_zero
    · rw [not_or] at h2
      exact bpMulBigintBigint_denotes (isBigint_bpIntToBigint a) (isBigint_bpIntToBigint b) h2.1 h2.2
  · split_ifs with h
    · refine ⟨_, rfl, ?_⟩
      rw [show Term.val (.int a) = 0 from h, zero_mul]
      exact denotes_zero
    · exact bpMulBigintBigint_denotes (isBigint_bpIntToBigint a) (isBigint_of_canon hy) h (ne_zero_of_canon hy)
  · split_ifs with h
    · refine ⟨_, rfl, ?_⟩
      rw [show Term.val (.int b) = 0 from h, mul_zero]
      exact denotes_zero
    · exact bpMulBigintBigint_denotes (isBigint_of_canon hx) (isBigint_bpIntToBigint b) (ne_zero_of_canon hx) h
  · exact bpMulBigintBigint_denotes (isBigint_of_canon hx) (isBigint_of_canon hy) (ne_zero_of_canon hx)
      (ne_zero_of_canon hy)

/-- Sum, difference and product are exact and canonical, whatever the representations of the operands. -/
theorem bpMath_add_sub_mul_exact (x y : Number) : Denotes (bpMathAdd x.term y.term) (x.val + y.val) ∧
      Denotes (bpMathSub x.term y.term) (x.val - y.val) ∧
      ∃ t, bpMathMul x.term y.term = .ok t ∧ Denotes t (x.val * y.val) :=
  ⟨bpMathAdd_denotes x y, bpMathSub_denotes x y, bpMathMul_denotes x y⟩

/-- Cancellation shrinks two bigints back to one word. -/
example : bpMathSub (.bigint ⟨3, [1, 0, 1]⟩) (.bigint ⟨3, [0, 0, 1]⟩) = .int 1 := by decide

end Picat
