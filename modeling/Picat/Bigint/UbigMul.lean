import Picat.Lib.Digits
import Picat.Lib.Loops

/-!
# Unsigned big integers: carries, borrows and comparison

The loops of `bigint.c` over `UBIGINT` arrays, as functions of digit lists (`x[0]` first); an array with
its size is a list and its length.

* `zapLeadingZeros` : the stripped list of the same value.
-/

namespace Picat
open Digits List

def bpBigintBase : Nat := 2 ^ 28

abbrev ubigVal (x : List Nat) : Nat := Nat.ofDigits bpBigintBase x

theorem one_lt_base : 1 < bpBigintBase := by decide

/-! ## The digit macros -/

/-- `BIGINT_COMPUTE_CARRY_VAL`: the stored digit and the carry. -/
def computeCarryVal (x : Nat) : Nat × Nat :=
  if x ≥ bpBigintBase then (x - bpBigintBase, 1) else (x, 0)

/-- `BIGINT_COMPUTE_BORROW_VAL`: the stored digit and the borrow. -/
def computeBorrowVal (x : Int) : Nat × Nat :=
  if x < 0 then ((x + bpBigintBase).toNat, 1) else (x.toNat, 0)

theorem computeCarryVal_spec {x : Nat} (hx : x < 2 * bpBigintBase) :
    (computeCarryVal x).1 + bpBigintBase * (computeCarryVal x).2 = x ∧
      (computeCarryVal x).1 < bpBigintBase ∧ (computeCarryVal x).2 ≤ 1 := by
  unfold computeCarryVal
  split_ifs <;> refine ⟨?_, ?_, ?_⟩ <;> simp only <;> omega

theorem computeBorrowVal_spec {x : Int} (hl : -(bpBigintBase : Int) ≤ x) (hu : x < bpBigintBase) :
    ((computeBorrowVal x).1 : Int) = x + bpBigintBase * (computeBorrowVal x).2 ∧
      (computeBorrowVal x).1 < bpBigintBase ∧ (computeBorrowVal x).2 ≤ 1 := by
  unfold computeBorrowVal
  split_ifs <;> refine ⟨?_, ?_, ?_⟩ <;> simp only <;> omega

def zapLeadingZeros (x : List Nat) : List Nat := x.rdropWhile (· == 0)

/-- `x` is the digit list of `v` without leading zeros. -/
structure IsUbig (x : List Nat) (v : Nat) : Prop where
  valid : Valid bpBigintBase x
  stripped : Stripped x
  val_eq : ubigVal x = v

variable {v : Nat} {x y : List Nat}

theorem IsUbig.ext {x y : List Nat} {v : Nat} (hx : IsUbig x v) (hy : IsUbig y v) : x = y :=
  Stripped.ext one_lt_base hx.valid hx.stripped hy.valid hy.stripped (hx.val_eq.trans hy.val_eq.symm)

theorem IsUbig.eq_nil_iff (hx : IsUbig x v) : x = [] ↔ v = 0 := by
  rw [← hx.val_eq, ubigVal, hx.stripped.ofDigits_eq_zero one_lt_base]

theorem IsUbig.lt_pow (hx : IsUbig x v) : v < bpBigintBase ^ x.length := by
  rw [← hx.val_eq]
  exact ofDigits_lt_pow one_lt_base hx.valid

theorem IsUbig.pow_le (hx : IsUbig x v) (hv : v ≠ 0) : bpBigintBase ^ (x.length - 1) ≤ v := by
  rw [← hx.val_eq]
  exact pow_le_ofDigits one_lt_base hx.stripped (fun h => hv (hx.eq_nil_iff.1 h))

theorem IsUbig.length_le {w : Nat} (hx : IsUbig x v) (hy : IsUbig y w) (h : v ≤ w) : x.length ≤ y.length :=
  length_le_of_ofDigits_le one_lt_base hx.stripped hy.valid (hx.val_eq.trans_le (h.trans_eq hy.val_eq.symm))

theorem isUbig_zapLeadingZeros (hx : Valid bpBigintBase x) : IsUbig (zapLeadingZeros x) (ubigVal x) :=
  ⟨hx.rdropWhile _, stripped_rdropWhile x, ofDigits_rdropWhile _ x⟩

/-! ## Carry and borrow loops -/

/-- The loop over `z[i] = x[i] + y[i] + carry`, to the end of the shorter array: the digits and the
carry out. -/
def addLoop : List Nat → List Nat → Nat → List Nat × Nat
  | x :: xs, y :: ys, carry =>
    let (z, carry) := computeCarryVal (x + y + carry)
    let (zs, carry) := addLoop xs ys carry
    (z :: zs, carry)
  | _, _, carry => ([], carry)

/-- The loop `z[i] = y[i] + 1` while there is a carry; from there on `z[i] = y[i]`. -/
def carryLoop : List Nat → Nat → List Nat × Nat
  | y :: ys, carry =>
    if carry = 1 then
      let (z, carry) := computeCarryVal (y + 1)
      let (zs, carry) := carryLoop ys carry
      (z :: zs, carry)
    else (y :: ys, carry)
  | [], carry => ([], carry)

/-- The loop over `z[i] = y[i] - x[i] - borrow`, to the end of the shorter array. -/
def subLoop : List Nat → List Nat → Nat → List Nat × Nat
  | y :: ys, x :: xs, borrow =>
    let (z, borrow) := computeBorrowVal ((y : Int) - x - borrow)
    let (zs, borrow) := subLoop ys xs borrow
    (z :: zs, borrow)
  | _, _, borrow => ([], borrow)

/-- The loop `z[i] = y[i] - 1` while there is a borrow; from there on `z[i] = y[i]`. -/
def borrowLoop : List Nat → Nat → List Nat × Nat
  | y :: ys, borrow =>
    if borrow = 1 then
      let (z, borrow) := computeBorrowVal ((y : Int) - 1)
      let (zs, borrow) := borrowLoop ys borrow
      (z :: zs, borrow)
    else (y :: ys, borrow)
  | [], borrow => ([], borrow)

/-- What a loop leaves: valid digits, as many as it was given, and a carry or borrow bit. -/
structure LoopOut (n : Nat) (out : List Nat × Nat) : Prop where
  valid : Valid bpBigintBase out.1
  length : out.1.length = n
  bit : out.2 ≤ 1

theorem addLoop_spec : ∀ (x y : List Nat) (carry : Nat), Valid bpBigintBase x → Valid bpBigintBase y →
    x.length ≤ y.length → carry ≤ 1 →
    LoopOut x.length (addLoop x y carry) ∧
      ubigVal (addLoop x y carry).1 + bpBigintBase ^ x.length * (addLoop x y carry).2 =
        ubigVal x + ubigVal (y.take x.length) + carry
  | [], y, carry, _, _, _, hc => by
    simp only [addLoop]
    exact ⟨⟨Valid.nil, rfl, hc⟩, by simp⟩
  | _ :: _, [], _, _, _, hl, _ => by simp at hl
  | x :: xs, y :: ys, carry, hx, hy, hl, hc => by
    obtain ⟨hx0, hxs⟩ := valid_cons.1 hx
    obtain ⟨hy0, hys⟩ := valid_cons.1 hy
    obtain ⟨h1, h2, h3⟩ := computeCarryVal_spec (x := x + y + carry) (by omega)
    obtain ⟨ho, hv⟩ := addLoop_spec xs ys (computeCarryVal (x + y + carry)).2 hxs hys (by simpa using hl) h3
    refine ⟨⟨valid_cons.2 ⟨h2, ho.valid⟩, by simp [addLoop, ho.length], ho.bit⟩, ?_⟩
    have hstep := ofDigits_cons_carry (s := x + y) h1 hv
    simp only [addLoop, length_cons, take_succ_cons]
    rw [hstep]
    simp only [ubigVal, Nat.ofDigits_cons, mul_add]
    omega

theorem carryLoop_spec : ∀ (y : List Nat) (carry : Nat), Valid bpBigintBase y → carry ≤ 1 →
    LoopOut y.length (carryLoop y carry) ∧
      ubigVal (carryLoop y carry).1 + bpBigintBase ^ y.length * (carryLoop y carry).2 = ubigVal y + carry
  | [], carry, _, hc => by
    simp only [carryLoop]
    exact ⟨⟨Valid.nil, rfl, hc⟩, by simp⟩
  | y :: ys, carry, hy, hc => by
    obtain ⟨hy0, hys⟩ := valid_cons.1 hy
    by_cases h : carry = 1
    · obtain ⟨h1, h2, h3⟩ := computeCarryVal_spec (x := y + 1) (by omega)
      obtain ⟨ho, hv⟩ := carryLoop_spec ys (computeCarryVal (y + 1)).2 hys h3
      have hstep := ofDigits_cons_carry h1 hv
      simp only [carryLoop, if_pos h, length_cons]
      refine ⟨⟨valid_cons.2 ⟨h2, ho.valid⟩, by simp [ho.length], ho.bit⟩, ?_⟩
      rw [hstep, h, ubigVal, ubigVal, Nat.ofDigits_cons]
    · simp only [carryLoop, if_neg h]
      obtain rfl : carry = 0 := by omega
      exact ⟨⟨hy, rfl, by simp⟩, by simp⟩

theorem subLoop_spec : ∀ (y x : List Nat) (borrow : Nat), Valid bpBigintBase y → Valid bpBigintBase x →
    x.length ≤ y.length → borrow ≤ 1 →
    LoopOut x.length (subLoop y x borrow) ∧ ubigVal (subLoop y x borrow).1 + ubigVal x + borrow =
        ubigVal (y.take x.length) + bpBigintBase ^ x.length * (subLoop y x borrow).2
  | y, [], borrow, _, _, _, hb => by
    cases y <;> exact ⟨⟨Valid.nil, rfl, hb⟩, by simp [subLoop]⟩
  | [], _ :: _, _, _, _, hl, _ => by simp at hl
  | y :: ys, x :: xs, borrow, hy, hx, hl, hb => by
    obtain ⟨hx0, hxs⟩ := valid_cons.1 hx
    obtain ⟨hy0, hys⟩ := valid_cons.1 hy
    obtain ⟨h1, h2, h3⟩ := computeBorrowVal_spec (x := (y : Int) - x - borrow) (by omega) (by omega)
    obtain ⟨ho, hv⟩ :=
      subLoop_spec ys xs (computeBorrowVal ((y : Int) - x - borrow)).2 hys hxs (by simpa using hl) h3
    refine ⟨⟨valid_cons.2 ⟨h2, ho.valid⟩, by simp [subLoop, ho.length], ho.bit⟩, ?_⟩
    have hcol : (computeBorrowVal ((y : Int) - x - borrow)).1 + x + borrow =
        y + bpBigintBase * (computeBorrowVal ((y : Int) - x - borrow)).2 := by
      omega
    have hstep := ofDigits_cons_borrow hcol hv
    simp only [subLoop, length_cons, take_succ_cons]
    simp only [ubigVal, Nat.ofDigits_cons] at hstep ⊢
    exact hstep

theorem borrowLoop_spec : ∀ (y : List Nat) (borrow : Nat), Valid bpBigintBase y → borrow ≤ 1 →
    LoopOut y.length (borrowLoop y borrow) ∧
      ubigVal (borrowLoop y borrow).1 + borrow = ubigVal y + bpBigintBase ^ y.length * (borrowLoop y borrow).2
  | [], borrow, _, hb => by
    simp only [borrowLoop]
    exact ⟨⟨Valid.nil, rfl, hb⟩, by simp⟩
  | y :: ys, borrow, hy, hb => by
    obtain ⟨hy0, hys⟩ := valid_cons.1 hy
    by_cases h : borrow = 1
    · obtain ⟨h1, h2, h3⟩ := computeBorrowVal_spec (x := (y : Int) - 1) (by omega) (by omega)
      obtain ⟨ho, hv⟩ := borrowLoop_spec ys (computeBorrowVal ((y : Int) - 1)).2 hys h3
      have hcol : (computeBorrowVal ((y : Int) - 1)).1 + 0 + 1 =
          y + bpBigintBase * (computeBorrowVal ((y : Int) - 1)).2 := by
        omega
      have hstep := ofDigits_cons_borrow (S := 0) hcol (by rw [Nat.add_zero]; exact hv)
      simp only [borrowLoop, if_pos h, length_cons]
      refine ⟨⟨valid_cons.2 ⟨h2, ho.valid⟩, by simp [ho.length], ho.bit⟩, ?_⟩
      simpa [ubigVal, Nat.ofDigits_cons, h] using hstep
    · simp only [borrowLoop, if_neg h]
      obtain rfl : borrow = 0 := by omega
      exact ⟨⟨hy, rfl, by simp⟩, by simp⟩

/-! ## Addition and subtraction -/

def bpAddUbigUbig (x y : List Nat) : List Nat :=
  let (x, y) := if x.length > y.length then (y, x) else (x, y)
  let (z, carry) := addLoop x y 0
  let (z', carry) := carryLoop (y.drop x.length) carry
  if carry = 1 then z ++ z' ++ [1] else z ++ z'

/-- `bp_sub_ubig_ubig`: `y - x` for `y >= x`. -/
def bpSubUbigUbig (y x : List Nat) : List Nat :=
  let (z, borrow) := subLoop y x 0
  let (z', _) := borrowLoop (y.drop x.length) borrow
  zapLeadingZeros (z ++ z')

/-- `bp_inc_ubig`, for an array of at least one digit. -/
def bpIncUbig (y : List Nat) : List Nat :=
  let (z, carry) := carryLoop y 1
  if carry = 1 then z ++ [1] else z

/-- `bp_dec_ubig`, for an array of at least one digit. -/
def bpDecUbig (y : List Nat) : List Nat :=
  let (z, _) := borrowLoop y 1
  zapLeadingZeros z

theorem LoopOut.append {z z' : List Nat} {c c' : Nat} (ho1 : LoopOut x.length (z, c)) (hl : x.length ≤ y.length)
    (ho2 : LoopOut (y.drop x.length).length (z', c')) :
    LoopOut y.length (z ++ z', c') ∧ z.length = x.length ∧
      bpBigintBase ^ y.length = bpBigintBase ^ x.length * bpBigintBase ^ (y.drop x.length).length := by
  have hlen : z.length = x.length := ho1.length
  have hlen' : z'.length = y.length - x.length := by rw [ho2.length, length_drop]
  refine ⟨⟨valid_append.2 ⟨ho1.valid, ho2.valid⟩, ?_, ho2.bit⟩, hlen, ?_⟩
  · simp only [length_append, hlen, hlen']
    omega
  · rw [← pow_add, length_drop, Nat.add_sub_cancel' hl]

theorem addLoop_carryLoop_spec (hx : Valid bpBigintBase x) (hy : Valid bpBigintBase y)
    (hl : x.length ≤ y.length) {z z' : List Nat} {c c' : Nat} (h1 : addLoop x y 0 = (z, c))
    (h2 : carryLoop (y.drop x.length) c = (z', c')) :
    LoopOut y.length (z ++ z', c') ∧ ubigVal (z ++ z') + bpBigintBase ^ y.length * c' = ubigVal x + ubigVal y := by
  obtain ⟨ho1, hv1⟩ := addLoop_spec x y 0 hx hy hl (by omega)
  rw [h1] at ho1 hv1
  obtain ⟨ho2, hv2⟩ := carryLoop_spec (y.drop x.length) c (hy.drop _) ho1.bit
  rw [h2] at ho2 hv2
  obtain ⟨ho, hlen, hp⟩ := ho1.append hl ho2
  refine ⟨ho, ?_⟩
  have hy' := ofDigits_take_add_drop bpBigintBase y hl
  have hm := congrArg (bpBigintBase ^ x.length * ·) hv2
  simp only [ubigVal, mul_add, Nat.ofDigits_append, hlen, hp, mul_assoc] at hv1 hm hy' ⊢
  omega

theorem subLoop_borrowLoop_spec (hy : Valid bpBigintBase y) (hx : Valid bpBigintBase x)
    (hl : x.length ≤ y.length) {z z' : List Nat} {c c' : Nat} (h1 : subLoop y x 0 = (z, c))
    (h2 : borrowLoop (y.drop x.length) c = (z', c')) :
    LoopOut y.length (z ++ z', c') ∧ ubigVal (z ++ z') + ubigVal x = ubigVal y + bpBigintBase ^ y.length * c' := by
  obtain ⟨ho1, hv1⟩ := subLoop_spec y x 0 hy hx hl (by omega)
  rw [h1] at ho1 hv1
  obtain ⟨ho2, hv2⟩ := borrowLoop_spec (y.drop x.length) c (hy.drop _) ho1.bit
  rw [h2] at ho2 hv2
  obtain ⟨ho, hlen, hp⟩ := ho1.append hl ho2
  refine ⟨ho, ?_⟩
  have hy' := ofDigits_take_add_drop bpBigintBase y hl
  have hm := congrArg (bpBigintBase ^ x.length * ·) hv2
  simp only [ubigVal, mul_add, Nat.ofDigits_append, hlen, hp, mul_assoc] at hv1 hm hy' ⊢
  omega

theorem isUbig_of_carry {z : List Nat} {c w : Nat} (ho : LoopOut y.length (z, c))
    (hv : ubigVal z + bpBigintBase ^ y.length * c = v) (hy : IsUbig y w) (hw : w ≤ v) :
    IsUbig (if c = 1 then z ++ [1] else z) v := by
  have hlen : z.length = y.length := ho.length
  split_ifs with hc
  · refine ⟨valid_append.2 ⟨ho.valid, valid_cons.2 ⟨one_lt_base, Valid.nil⟩⟩, stripped_append_singleton.2 (by omega), ?_⟩
    rw [ubigVal, Nat.ofDigits_append, Nat.ofDigits_singleton, hlen]
    rw [hc] at hv
    exact hv
  · obtain rfl : c = 0 := by have := ho.bit; simp only at this; omega
    rw [Nat.mul_zero, Nat.add_zero] at hv
    refine ⟨ho.valid, ?_, hv⟩
    by_cases hw0 : w = 0
    · have : y.length = 0 := by rw [hy.eq_nil_iff.2 hw0]; rfl
      rw [eq_nil_of_length_eq_zero (hlen.trans this)]
      exact fun h => absurd rfl h
    · apply stripped_of_pow_le one_lt_base ho.valid
      rw [show Nat.ofDigits bpBigintBase z = v from hv, hlen]
      exact le_trans (hy.pow_le hw0) hw

theorem bpAddUbigUbig_spec {a b : Nat} (hx : IsUbig x a) (hy : IsUbig y b) : IsUbig (bpAddUbigUbig x y) (a + b) := by
  wlog hl : x.length ≤ y.length generalizing x y a b
  · have h := this hy hx (by omega)
    rw [Nat.add_comm]
    convert h using 1
    simp only [bpAddUbigUbig, if_pos (show x.length > y.length by omega), if_neg (show ¬ y.length > x.length by omega)]
  · obtain ⟨ho, hv⟩ := addLoop_carryLoop_spec hx.valid hy.valid hl rfl rfl
    rw [hx.val_eq, hy.val_eq] at hv
    simp only [bpAddUbigUbig, if_neg (show ¬ x.length > y.length by omega)]
    exact isUbig_of_carry ho hv hy (by omega)

theorem bpSubUbigUbig_spec {a b : Nat} (hy : IsUbig y b) (hx : IsUbig x a) (h : a ≤ b) :
    IsUbig (bpSubUbigUbig y x) (b - a) := by
  obtain ⟨ho, hv⟩ := subLoop_borrowLoop_spec hy.valid hx.valid (hx.length_le hy h) rfl rfl
  rw [hx.val_eq, hy.val_eq] at hv
  have hz := isUbig_zapLeadingZeros ho.valid
  have hlt := ofDigits_lt_pow one_lt_base ho.valid
  rw [ho.length] at hlt
  have hval : ubigVal ((subLoop y x 0).1 ++ (borrowLoop (y.drop x.length) (subLoop y x 0).2).1) = b - a := by
    -- no borrow is left: it would put the difference of the values below minus the power of the base
    rcases Nat.le_one_iff_eq_zero_or_eq_one.1 ho.bit with hc | hc
    · simp only at hc
      rw [hc] at hv
      omega
    · simp only at hc
      rw [hc] at hv
      simp only [ubigVal] at hv hlt
      omega
  rw [← hval]
  exact hz

theorem bpIncUbig_spec {b : Nat} (hy : IsUbig y b) : IsUbig (bpIncUbig y) (b + 1) := by
  obtain ⟨ho, hv⟩ := carryLoop_spec y 1 hy.valid (le_refl 1)
  rw [hy.val_eq] at hv
  exact isUbig_of_carry ho hv hy (by omega)

theorem bpDecUbig_spec (hy : Valid bpBigintBase y) (h : ubigVal y ≠ 0) : IsUbig (bpDecUbig y) (ubigVal y - 1) := by
  obtain ⟨ho, hv⟩ := borrowLoop_spec y 1 hy (le_refl 1)
  have hlt := ofDigits_lt_pow one_lt_base ho.valid
  rw [ho.length] at hlt
  have hval : ubigVal (borrowLoop y 1).1 = ubigVal y - 1 := by
    rcases Nat.le_one_iff_eq_zero_or_eq_one.1 ho.bit with hc | hc
    · rw [hc] at hv
      omega
    · rw [hc] at hv
      simp only [ubigVal] at hv hlt h
      omega
  rw [← hval]
  exact isUbig_zapLeadingZeros ho.valid

/-! ## Comparison -/

/-- The loop of `bp_compare_mag_mag` from the digit below `i` down. -/
def compareMagMagLoop (x y : List Nat) : Nat → Int
  | 0 => 0
  | i + 1 =>
    if x.getD i 0 > y.getD i 0 then 1
    else if y.getD i 0 > x.getD i 0 then -1
    else compareMagMagLoop x y i

/-- `bp_compare_mag_mag`, for two arrays of the same length. -/
def bpCompareMagMag (size : Nat) (x y : List Nat) : Int := compareMagMagLoop x y size

theorem compareMagMagLoop_spec (hx : Valid bpBigintBase x) (hy : Valid bpBigintBase y) :
    ∀ i, i ≤ x.length → i ≤ y.length →
      compareMagMagLoop x y i = Int.sign ((ubigVal (x.take i) : Int) - ubigVal (y.take i)) := by
  intro i
  induction i with
  | zero => intro _ _; simp [compareMagMagLoop]
  | succ i ih =>
    intro hix hiy
    have hxi : i < x.length := by omega
    have hyi : i < y.length := by omega
    have hlx := ofDigits_lt_pow one_lt_base (hx.take i)
    have hly := ofDigits_lt_pow one_lt_base (hy.take i)
    rw [length_take, Nat.min_eq_left (le_of_lt hxi)] at hlx
    rw [length_take, Nat.min_eq_left (le_of_lt hyi)] at hly
    simp only [compareMagMagLoop, getD_eq_getElem _ _ hxi, getD_eq_getElem _ _ hyi, ubigVal,
      ofDigits_take_succ _ _ hxi, ofDigits_take_succ _ _ hyi]
    split_ifs with h1 h2
    · -- a larger digit outweighs everything below it
      have hm := Nat.mul_le_mul_left (bpBigintBase ^ i) (show y[i] + 1 ≤ x[i] by omega)
      rw [mul_add] at hm
      exact (Int.sign_eq_one_of_pos (by omega)).symm
    · have hm := Nat.mul_le_mul_left (bpBigintBase ^ i) (show x[i] + 1 ≤ y[i] by omega)
      rw [mul_add] at hm
      exact (Int.sign_eq_neg_one_of_neg (by omega)).symm
    · rw [ih (by omega) (by omega), show x[i] = y[i] by omega]
      simp only [ubigVal]
      congr 1
      omega

theorem bpCompareMagMag_spec (hx : Valid bpBigintBase x) (hy : Valid bpBigintBase y) (hl : x.length = y.length) :
    bpCompareMagMag x.length x y = Int.sign ((ubigVal x : Int) - ubigVal y) := by
  rw [bpCompareMagMag, compareMagMagLoop_spec hx hy _ (le_refl _) (by omega), take_length, hl, take_length]

end Picat

/-! # Unsigned big integers: shifted digits and multiplication -/

namespace Picat
open Digits List

/-! ## Shifted digits -/

abbrev maskLow28 : Nat := 2 ^ 28 - 1

def getShiftedDigit (x : List Nat) (i y : Nat) : Nat :=
  let part1 := if i = 0 ∨ y = 0 then 0 else x.getD (i - 1) 0 >>> (28 - y)
  let part2 := if i = x.length then 0 else (x.getD i 0 <<< y) &&& maskLow28
  part1 ||| part2

/-- The `xsize + 1` digits of `x << y`. -/
def shiftedDigits (x : List Nat) (y : Nat) : List Nat :=
  (List.range (x.length + 1)).map fun i => getShiftedDigit x i y

@[simp] theorem length_shiftedDigits (x : List Nat) (y : Nat) : (shiftedDigits x y).length = x.length + 1 := by
  simp [shiftedDigits]

def shiftOut (x : List Nat) (s : Nat) : Nat → Nat
  | 0 => 0
  | i + 1 => x.getD i 0 >>> (28 - s)

variable {s : Nat} {x z : List Nat}

theorem shift_split {d s : Nat} (hs : s < 28) :
    d * 2 ^ s = ((d <<< s) &&& maskLow28) + bpBigintBase * (d >>> (28 - s)) := by
  rw [Nat.and_two_pow_sub_one_eq_mod, Nat.shiftLeft_eq, Nat.shiftRight_eq_div_pow]
  have hp : 2 ^ 28 = 2 ^ s * 2 ^ (28 - s) := by
    rw [← pow_add, Nat.add_sub_cancel' (le_of_lt hs)]
  have hd : d >>> (28 - s) = d * 2 ^ s / 2 ^ 28 := by
    rw [Nat.shiftRight_eq_div_pow, hp, Nat.mul_comm d, Nat.mul_div_mul_left _ _ (Nat.two_pow_pos s)]
  rw [← Nat.shiftRight_eq_div_pow, hd]
  exact (Nat.mod_add_div _ _).symm

section
variable (hx : Valid bpBigintBase x) (hs : s < 28)
include hx hs

theorem shiftOut_lt (i : Nat) : shiftOut x s i < 2 ^ s := by
  cases i with
  | zero => exact Nat.two_pow_pos s
  | succ i =>
    have hd : x.getD i 0 < bpBigintBase := by
      by_cases hi : i < x.length
      · rw [getD_eq_getElem _ _ hi]
        exact hx.getElem hi
      · rw [getD_eq_default _ _ (by omega)]
        decide
    rw [shiftOut, Nat.shiftRight_eq_div_pow]
    apply Nat.div_lt_of_lt_mul
    rw [← pow_add, show 28 - s + s = 28 by omega]
    exact hd

theorem getShiftedDigit_eq {i : Nat} (hi : i < x.length) :
    getShiftedDigit x i s = shiftOut x s i + ((x[i] <<< s) &&& maskLow28) := by
  have h1 : (if i = 0 ∨ s = 0 then 0 else x.getD (i - 1) 0 >>> (28 - s)) = shiftOut x s i := by
    cases i with
    | zero => simp [shiftOut]
    | succ i =>
      by_cases h0 : s = 0
      · have := shiftOut_lt hx hs (i + 1)
        rw [h0] at this
        simp only [h0, or_true, if_true]
        omega
      · simp [shiftOut, h0]
  have h2 : (x[i] <<< s) &&& maskLow28 = 2 ^ s * (x[i] % 2 ^ (28 - s)) := by
    rw [Nat.and_two_pow_sub_one_eq_mod, Nat.shiftLeft_eq, Nat.mul_comm, ← Nat.mul_mod_mul_left, ← pow_add,
      show s + (28 - s) = 28 by omega]
  simp only [getShiftedDigit]
  rw [h1, if_neg (by omega), getD_eq_getElem _ _ hi, h2, Nat.lor_comm,
    ← Nat.two_pow_add_eq_or_of_lt (shiftOut_lt hx hs i), Nat.add_comm]

theorem getShiftedDigit_length : getShiftedDigit x x.length s = shiftOut x s x.length := by
  simp only [getShiftedDigit, if_true, Nat.or_zero]
  cases hn : x.length with
  | zero => simp [shiftOut]
  | succ n =>
    by_cases h0 : s = 0
    · have := shiftOut_lt hx hs (n + 1)
      rw [h0] at this
      simp only [h0, or_true, if_true]
      omega
    · simp [shiftOut, h0]

theorem valid_shiftedDigits : Valid bpBigintBase (shiftedDigits x s) := by
  intro d hd
  obtain ⟨i, hi, rfl⟩ := mem_map.1 hd
  have hlt : shiftOut x s i < bpBigintBase :=
    lt_trans (shiftOut_lt hx hs i) (Nat.pow_lt_pow_right (by decide) hs)
  by_cases h : i < x.length
  · have hle : shiftOut x s i + ((x[i] <<< s) &&& maskLow28) < bpBigintBase := by
      rw [← getShiftedDigit_eq hx hs h]
      refine Nat.or_lt_two_pow ?_ ?_
      · split_ifs
        · decide
        · cases i with
          | zero => omega
          | succ i => exact hlt
      · split_ifs
        · decide
        · exact lt_of_le_of_lt Nat.and_le_right (by decide)
    rw [getShiftedDigit_eq hx hs h]
    exact hle
  · obtain rfl : i = x.length := by have := mem_range.1 hi; omega
    rw [getShiftedDigit_length hx hs]
    exact hlt

theorem ubigVal_shiftedDigits_take : ∀ n ≤ x.length, ubigVal ((List.range n).map fun i => getShiftedDigit x i s) +
      bpBigintBase ^ n * shiftOut x s n = ubigVal (x.take n) * 2 ^ s := by
  intro n
  induction n with
  | zero => intro _; simp [shiftOut]
  | succ n ih =>
    intro hn
    have hlt : n < x.length := by omega
    have hsplit := congrArg (bpBigintBase ^ n * ·) (shift_split (d := x[n]) hs)
    have h := ih (by omega)
    simp only [ubigVal, range_succ, List.map_append, map_cons, map_nil, Nat.ofDigits_append,
      Nat.ofDigits_singleton, length_map, length_range, getShiftedDigit_eq hx hs hlt,
      ofDigits_take_succ _ _ hlt, shiftOut, getD_eq_getElem _ _ hlt, pow_succ, add_mul, mul_add,
      mul_assoc] at h hsplit ⊢
    omega

theorem ubigVal_shiftedDigits : ubigVal (shiftedDigits x s) = ubigVal x * 2 ^ s := by
  have h := ubigVal_shiftedDigits_take hx hs x.length (le_refl _)
  rw [take_length] at h
  rw [← h, shiftedDigits, range_succ, List.map_append, map_singleton, ubigVal, Nat.ofDigits_append,
    Nat.ofDigits_singleton, getShiftedDigit_length hx hs, length_map, length_range]

end

/-! ## Multiplication -/

/-- One 1-bit of `bp_mul_ubig_ubig`: add `y << (i blocks and i2 bits)` to `z`; `none` when the carry
leaves `z`. -/
def mulAddBit (y : List Nat) (i i2 : Nat) (z : List Nat) : Option (List Nat) :=
  let (s, carry) := addLoop (shiftedDigits y i2) (z.drop i) 0
  let (t, carry) := carryLoop ((z.drop i).drop (shiftedDigits y i2).length) carry
  if carry = 1 then none else some (z.take i ++ (s ++ t))

/-- The loop over the bits of block `i` of `x`. -/
def mulBits (y : List Nat) (xi i : Nat) (z : List Nat) : Option (List Nat) :=
  (List.range 28).foldlM (fun z i2 => if xi &&& (1 <<< i2) = 0 then some z else mulAddBit y i i2 z) z

def zapOne (z : List Nat) : List Nat := if z.getLastD 1 = 0 then z.dropLast else z

def bpMulUbigUbig (x y : List Nat) : Option (List Nat) :=
  ((List.range x.length).foldlM (fun z i => mulBits y (x.getD i 0) i z)
    (List.replicate (x.length + y.length) 0)).map zapOne

/-- A valid array of `n` digits with value `v`. -/
structure Holds (n : Nat) (z : List Nat) (v : Nat) : Prop where
  valid : Valid bpBigintBase z
  length : z.length = n
  val_eq : ubigVal z = v

theorem mulAddBit_spec {y : List Nat} {n v i i2 : Nat} (hy : Valid bpBigintBase y) (hz : Holds n z v)
    (hi : i + y.length < n) (hi2 : i2 < 28) (hfit : v + bpBigintBase ^ i * 2 ^ i2 * ubigVal y < bpBigintBase ^ n) :
    ∃ z', mulAddBit y i i2 z = some z' ∧ Holds n z' (v + bpBigintBase ^ i * 2 ^ i2 * ubigVal y) := by
  have hlen := hz.length
  have hi' : i ≤ z.length := by omega
  obtain ⟨ho, hv⟩ := addLoop_carryLoop_spec (valid_shiftedDigits hy hi2) (hz.valid.drop i)
    (by rw [length_shiftedDigits, length_drop]; omega) rfl rfl
  rw [ubigVal_shiftedDigits hy hi2] at hv
  simp only [mulAddBit]
  set s := addLoop (shiftedDigits y i2) (z.drop i) 0
  set t := carryLoop ((z.drop i).drop (shiftedDigits y i2).length) s.2
  have hsplit := ofDigits_take_add_drop bpBigintBase z hi'
  have hp : bpBigintBase ^ n = bpBigintBase ^ i * bpBigintBase ^ (z.drop i).length := by
    rw [← pow_add, length_drop]
    congr 1
    omega
  have hm := congrArg (bpBigintBase ^ i * ·) hv
  have hval := hz.val_eq
  have hsum : ubigVal (z.take i ++ (s.1 ++ t.1)) + bpBigintBase ^ n * t.2 =
      v + bpBigintBase ^ i * 2 ^ i2 * ubigVal y := by
    rw [ubigVal, Nat.ofDigits_append, length_take, Nat.min_eq_left hi', hp]
    simp only [ubigVal, mul_add] at hm hval ⊢
    have e1 : bpBigintBase ^ i * 2 ^ i2 * Nat.ofDigits bpBigintBase y =
        bpBigintBase ^ i * (Nat.ofDigits bpBigintBase y * 2 ^ i2) := by ring
    rw [e1, mul_assoc]
    omega
  have hbit : t.2 = 0 := by
    rcases Nat.le_one_iff_eq_zero_or_eq_one.1 ho.bit with h | h
    · exact h
    · exfalso
      rw [h] at hsum
      omega
  rw [hbit] at hsum
  refine ⟨z.take i ++ (s.1 ++ t.1), if_neg (by omega), valid_append.2 ⟨hz.valid.take i, ho.valid⟩, ?_, by omega⟩
  have hl := ho.length
  rw [length_drop] at hl
  rw [length_append, length_take, Nat.min_eq_left hi', hl]
  omega

theorem mulBits_spec {y : List Nat} {n v i xi : Nat} (hy : Valid bpBigintBase y) (hz : Holds n z v)
    (hi : i + y.length < n) (hxi : xi < bpBigintBase)
    (hfit : v + bpBigintBase ^ i * xi * ubigVal y < bpBigintBase ^ n) :
    ∃ z', mulBits y xi i z = some z' ∧ Holds n z' (v + bpBigintBase ^ i * xi * ubigVal y) := by
  have hrun := Loops.exists_foldlM_range (fun z i2 => if xi &&& (1 <<< i2) = 0 then some z else mulAddBit y i i2 z)
    (fun i2 z => Holds n z (v + bpBigintBase ^ i * (xi % 2 ^ i2) * ubigVal y)) 28 z
    (by simpa [Nat.mod_one] using hz) ?_
  · rwa [show xi % 2 ^ 28 = xi from Nat.mod_eq_of_lt hxi] at hrun
  · intro i2 hi2 w hw
    have hbit := Nat.mod_pow_succ (x := xi) (b := 2) (k := i2)
    rw [← Nat.toNat_testBit] at hbit
    have hle : xi % 2 ^ (i2 + 1) ≤ xi := Nat.mod_le _ _
    rw [Nat.one_shiftLeft, Nat.and_two_pow]
    cases hb : xi.testBit i2 with
    | false =>
      rw [hb] at hbit
      refine ⟨w, by simp, ?_⟩
      simpa [hbit] using hw
    | true =>
      rw [hb] at hbit
      have hsum : v + bpBigintBase ^ i * (xi % 2 ^ (i2 + 1)) * ubigVal y =
          v + bpBigintBase ^ i * (xi % 2 ^ i2) * ubigVal y + bpBigintBase ^ i * 2 ^ i2 * ubigVal y := by
        rw [hbit, Bool.toNat_true]
        ring
      have hbound := Nat.mul_le_mul_right (ubigVal y) (Nat.mul_le_mul_left (bpBigintBase ^ i) hle)
      rw [if_neg (by simp), hsum]
      exact mulAddBit_spec hy hw hi hi2 (by omega)

theorem zapOne_spec {n v : Nat} (hz : Holds n z v) (hv : bpBigintBase ^ (n - 2) ≤ v) : IsUbig (zapOne z) v := by
  induction z using List.reverseRecOn with
  | nil =>
    have h0 := hz.val_eq
    have := Nat.pow_pos (n := n - 2) (lt_trans Nat.zero_lt_one one_lt_base)
    simp only [ubigVal, Nat.ofDigits_nil] at h0
    omega
  | append_singleton z d _ =>
    obtain ⟨hz1, hd⟩ := valid_append.1 hz.valid
    have hlen : z.length = n - 1 := by
      have := hz.length
      rw [length_append, length_singleton] at this
      omega
    unfold zapOne
    rw [getLastD_concat, dropLast_concat]
    split_ifs with h
    · have hval : ubigVal z = v := by
        rw [← hz.val_eq, h, ubigVal, ubigVal, Nat.ofDigits_append_zero]
      refine ⟨hz1, stripped_of_pow_le one_lt_base hz1 ?_, hval⟩
      rw [hlen, show Nat.ofDigits bpBigintBase z = v from hval]
      exact hv
    · exact ⟨hz.valid, stripped_append_singleton.2 h, hz.val_eq⟩

theorem zapOne_short {n v : Nat} (hz : Holds n z v) (hn : n ≤ 1) : IsUbig (zapOne z) v := by
  have hv := hz.val_eq
  have hl := hz.length
  rcases Nat.le_one_iff_eq_zero_or_eq_one.1 (hl ▸ hn) with h0 | h1
  · obtain rfl := eq_nil_of_length_eq_zero h0
    exact ⟨Valid.nil, fun h => absurd rfl h, hv⟩
  · obtain ⟨d, rfl⟩ := length_eq_one_iff.1 h1
    by_cases hd : d = 0
    · rw [hd] at hv ⊢
      have hz0 : zapOne [0] = [] := rfl
      rw [hz0]
      exact ⟨Valid.nil, fun h => absurd rfl h, by simpa [ubigVal] using hv⟩
    · have hz1 : zapOne [d] = [d] := by simp [zapOne, hd]
      rw [hz1]
      exact ⟨hz.valid, fun _ => by simpa using hd, hv⟩

theorem bpMulUbigUbig_spec {y : List Nat} {a b : Nat} (hx : IsUbig x a) (hy : IsUbig y b) (ha : a ≠ 0)
    (hb : b ≠ 0) : ∃ z, bpMulUbigUbig x y = some z ∧ IsUbig z (a * b) := by
  have hxl : 0 < x.length := length_pos_of_ne_nil (fun h => ha (hx.eq_nil_iff.1 h))
  have hyl : 0 < y.length := length_pos_of_ne_nil (fun h => hb (hy.eq_nil_iff.1 h))
  have hfit : a * b < bpBigintBase ^ (x.length + y.length) := by
    rw [pow_add]
    exact Nat.mul_lt_mul'' hx.lt_pow hy.lt_pow
  have hlow : bpBigintBase ^ (x.length + y.length - 2) ≤ a * b := by
    rw [show x.length + y.length - 2 = x.length - 1 + (y.length - 1) by omega, pow_add]
    exact Nat.mul_le_mul (hx.pow_le ha) (hy.pow_le hb)
  have hstep : ∀ i < x.length, ∀ w, Holds (x.length + y.length) w (ubigVal (x.take i) * b) →
      ∃ w', mulBits y (x.getD i 0) i w = some w' ∧ Holds (x.length + y.length) w' (ubigVal (x.take (i + 1)) * b) := by
    intro i hi w hw
    have hsum : ubigVal (x.take (i + 1)) * b = ubigVal (x.take i) * b + bpBigintBase ^ i * x[i] * ubigVal y := by
      rw [ubigVal, ofDigits_take_succ _ _ hi, ← hy.val_eq]
      ring
    have hle : ubigVal (x.take (i + 1)) * b ≤ a * b := by
      apply Nat.mul_le_mul_right b
      have := ofDigits_take_add_drop bpBigintBase x (n := i + 1) hi
      rw [← hx.val_eq]
      simp only [ubigVal]
      omega
    rw [hsum, getD_eq_getElem _ _ hi]
    rw [hsum] at hle
    exact mulBits_spec hy.valid hw (by omega) (hx.valid.getElem hi) (by omega)
  obtain ⟨z, hz, hP⟩ := Loops.exists_foldlM_range (fun z i => mulBits y (x.getD i 0) i z)
    (fun i z => Holds (x.length + y.length) z (ubigVal (x.take i) * b)) x.length
    (List.replicate (x.length + y.length) 0)
    ⟨Valid.replicate_zero (by decide) _, by simp, by simp⟩ hstep
  rw [take_length, hx.val_eq] at hP
  exact ⟨zapOne z, by rw [bpMulUbigUbig, hz]; rfl, zapOne_spec hP hlow⟩

end Picat

/-! # Unsigned big integers: shifts -/

namespace Picat
open Digits

def rightShiftBlocks (y : Nat) : Nat := (y + 27) / 28

def leftShiftBits (y : Nat) : Nat := 28 * rightShiftBlocks y - y

def bpShiftlUbigInt (x : List Nat) (y : Nat) : List Nat :=
  let shiftBlocks := y / 28
  let shiftBits := y % 28
  zapOne (List.replicate shiftBlocks 0 ++ shiftedDigits x shiftBits)

/-- `bp_shiftr_ubig_int`: the digits of `x << leftShiftBits` from place `rightShiftBlocks`. -/
def bpShiftrUbigInt (x : List Nat) (y : Nat) : List Nat :=
  if rightShiftBlocks y ≥ x.length + 1 then []
  else zapOne ((shiftedDigits x (leftShiftBits y)).drop (rightShiftBlocks y))

theorem leftShiftBits_spec (y : Nat) : leftShiftBits y < 28 ∧ 28 * rightShiftBlocks y = y + leftShiftBits y := by
  unfold leftShiftBits rightShiftBlocks
  omega

theorem two_pow_mul_leftShiftBits (y : Nat) : 2 ^ y * 2 ^ leftShiftBits y = bpBigintBase ^ rightShiftBlocks y := by
  rw [← pow_add, bpBigintBase, ← pow_mul, (leftShiftBits_spec y).2]

theorem ubigVal_drop {z : List Nat} (hz : Valid bpBigintBase z) {n : Nat} (hn : n ≤ z.length) :
    ubigVal (z.drop n) = ubigVal z / bpBigintBase ^ n := by
  have hsplit := ofDigits_take_add_drop bpBigintBase z hn
  have hlow := ofDigits_lt_pow one_lt_base (hz.take n)
  rw [List.length_take, Nat.min_eq_left hn] at hlow
  rw [ubigVal, ubigVal, ← hsplit, Nat.add_mul_div_left _ _ (Nat.pow_pos (by decide)), Nat.div_eq_of_lt hlow,
    Nat.zero_add]

section
variable {x : List Nat} {a y : Nat}

theorem holds_shiftr (hx : Valid bpBigintBase x) (hl : rightShiftBlocks y ≤ x.length) :
    Holds (x.length + 1 - rightShiftBlocks y) ((shiftedDigits x (leftShiftBits y)).drop (rightShiftBlocks y))
      (ubigVal x / 2 ^ y) := by
  have hs := (leftShiftBits_spec y).1
  have hv := valid_shiftedDigits hx hs
  refine ⟨hv.drop _, by rw [List.length_drop, length_shiftedDigits], ?_⟩
  rw [ubigVal_drop hv (by rw [length_shiftedDigits]; omega), ubigVal_shiftedDigits hx hs,
    ← two_pow_mul_leftShiftBits, Nat.mul_div_mul_right _ _ (Nat.two_pow_pos _)]

theorem bpShiftlUbigInt_spec (hx : IsUbig x a) (ha : a ≠ 0) : IsUbig (bpShiftlUbigInt x y) (a * 2 ^ y) := by
  have hs : y % 28 < 28 := Nat.mod_lt _ (by decide)
  have hxl : 0 < x.length := List.length_pos_of_ne_nil (fun h => ha (hx.eq_nil_iff.1 h))
  have hpow : a * 2 ^ y = bpBigintBase ^ (y / 28) * (a * 2 ^ (y % 28)) := by
    have he : 2 ^ y = bpBigintBase ^ (y / 28) * 2 ^ (y % 28) := by
      rw [bpBigintBase, ← pow_mul, ← pow_add, Nat.div_add_mod]
    rw [he]
    ring
  have hz : Holds (y / 28 + (x.length + 1)) (List.replicate (y / 28) 0 ++ shiftedDigits x (y % 28)) (a * 2 ^ y) := by
    refine ⟨valid_append.2 ⟨Valid.replicate_zero (by decide) _, valid_shiftedDigits hx.valid hs⟩, by simp, ?_⟩
    rw [ubigVal, Nat.ofDigits_append, Nat.ofDigits_replicate_zero, List.length_replicate, Nat.zero_add, hpow]
    have hv := ubigVal_shiftedDigits hx.valid hs
    rw [hx.val_eq] at hv
    exact congrArg (bpBigintBase ^ (y / 28) * ·) hv
  apply zapOne_spec hz
  rw [hpow, show y / 28 + (x.length + 1) - 2 = y / 28 + (x.length - 1) by omega, pow_add]
  exact Nat.mul_le_mul_left _ (le_trans (hx.pow_le ha) (Nat.le_mul_of_pos_right a (Nat.two_pow_pos _)))

theorem bpShiftrUbigInt_spec (hx : IsUbig x a) (hy : 0 < y) : IsUbig (bpShiftrUbigInt x y) (a / 2 ^ y) := by
  have hb := leftShiftBits_spec y
  unfold bpShiftrUbigInt
  split_ifs with h
  · -- every bit is shifted out
    have hlt : a < 2 ^ y := by
      calc a < bpBigintBase ^ x.length := hx.lt_pow
        _ = 2 ^ (28 * x.length) := by rw [bpBigintBase, ← pow_mul]
        _ ≤ 2 ^ y := Nat.pow_le_pow_right (by decide) (by omega)
    rw [Nat.div_eq_of_lt hlt]
    exact ⟨Valid.nil, fun h => absurd rfl h, rfl⟩
  · have hz := holds_shiftr hx.valid (show rightShiftBlocks y ≤ x.length by omega)
    rw [hx.val_eq] at hz
    by_cases h1 : x.length ≤ rightShiftBlocks y
    · exact zapOne_short hz (by omega)
    · apply zapOne_spec hz
      have ha : a ≠ 0 := by
        intro h0
        have := hx.eq_nil_iff.2 h0
        rw [this] at h1
        simp at h1
      rw [Nat.le_div_iff_mul_le (Nat.two_pow_pos _)]
      calc bpBigintBase ^ (x.length + 1 - rightShiftBlocks y - 2) * 2 ^ y
          ≤ bpBigintBase ^ (x.length + 1 - rightShiftBlocks y - 2) * bpBigintBase ^ rightShiftBlocks y := by
            rw [← two_pow_mul_leftShiftBits]
            exact Nat.mul_le_mul_left _ (Nat.le_mul_of_pos_right _ (Nat.two_pow_pos _))
        _ = bpBigintBase ^ (x.length - 1) := by
            rw [← pow_add]
            congr 1
            omega
        _ ≤ a := hx.pow_le ha

end

end Picat
