import Picat.Arith.Bitwise

/-!
# Shifts

`<<` and `>>` by a word; a negative count shifts the other way. A negative bigint is shifted right as a two's
complement word of its own size, filled with ones from the left.

* `ShiftWraps` : the words and counts for which the machine's shift, which uses the count modulo 64, loses
  the result; `bpBitwiseShift_iff` : where both operators are right and agree with the bigint paths.
-/

namespace Picat
open Digits TwosComplement List

/-! ## Two's complement words -/

/-- `z[i] |= m` for the last digit. -/
def orLast (z : List Nat) (m : Nat) : List Nat := z.dropLast ++ [z.getLastD 0 ||| m]

def bpShiftrTwoscomplementInt (x : List Nat) (y : Nat) : List Nat :=
  let s := leftShiftBits y
  let z := if rightShiftBlocks y ≤ x.length then
      orLast ((shiftedDigits x s).drop (rightShiftBlocks y)) ((maskLow28 >>> s) <<< s)
    else []
  setSignBit (z ++ List.replicate (x.length - z.length) maskLow28)

section
variable {x : List Nat} {e s n y : Nat} {v : Int}

theorem valid_replicate_mask (k : Nat) : Valid bpBigintBase (List.replicate k maskLow28) := by
  intro d hd
  rw [eq_of_mem_replicate hd]
  decide

theorem ubigVal_replicate_mask (k : Nat) : ubigVal (List.replicate k maskLow28) + 1 = bpBigintBase ^ k := by
  have h := ofDigits_complement (Valid.replicate_zero (b := bpBigintBase) (by decide) k)
  rw [map_replicate, Nat.ofDigits_replicate_zero, length_replicate] at h
  exact h

theorem shiftPattern (hs : s < 28) : (maskLow28 >>> s) <<< s = 2 ^ s * (2 ^ (28 - s) - 1) := by
  rw [Nat.shiftLeft_eq, Nat.mul_comm, Nat.shiftRight_eq_div_pow]
  congr 1
  have hp : 2 ^ 28 = 2 ^ s * 2 ^ (28 - s) := by rw [← pow_add, Nat.add_sub_cancel' (le_of_lt hs)]
  have hpos := Nat.two_pow_pos s
  have hpos' := Nat.two_pow_pos (28 - s)
  rw [maskLow28, hp, show 2 ^ s * 2 ^ (28 - s) - 1 = 2 ^ s * (2 ^ (28 - s) - 1) + (2 ^ s - 1) by
    rw [Nat.mul_sub, mul_one]; have := Nat.le_mul_of_pos_right (2 ^ s) hpos'; omega,
    Nat.mul_add_div hpos, Nat.div_eq_of_lt (by omega), Nat.add_zero]

theorem shiftedDigits_sign (x : List Nat) (e s : Nat) :
    ∃ S t t0, shiftedDigits (x ++ [bpBigintBase + e]) s = S ++ [t] ∧ shiftedDigits (x ++ [e]) s = S ++ [t0] ∧
      t = (if s = 0 then 0 else (bpBigintBase + e) >>> (28 - s)) ∧ t0 = (if s = 0 then 0 else e >>> (28 - s)) := by
  refine ⟨(List.range (x.length + 1)).map fun i => getShiftedDigit (x ++ [e]) i s, _, _, ?_, ?_, rfl, rfl⟩
  · rw [shiftedDigits, length_append, length_singleton, range_succ (n := x.length + 1), List.map_append, map_singleton]
    congr 1
    · apply map_congr_left
      intro i hi
      have hi' : i < x.length + 1 := mem_range.1 hi
      have hlow : ∀ j < x.length, (x ++ [bpBigintBase + e]).getD j 0 = (x ++ [e]).getD j 0 := by
        intro j hj
        simp [getD_eq_getElem?_getD, List.getElem?_append_left hj]
      have hmask : ((bpBigintBase + e) <<< s) &&& maskLow28 = (e <<< s) &&& maskLow28 := by
        rw [Nat.and_two_pow_sub_one_eq_mod, Nat.and_two_pow_sub_one_eq_mod, Nat.shiftLeft_eq, Nat.shiftLeft_eq, add_mul]
        exact Nat.mul_add_mod _ _ _
      simp only [getShiftedDigit, length_append, length_singleton]
      rw [if_neg (show ¬ i = x.length + 1 by omega), if_neg (show ¬ i = x.length + 1 by omega)]
      congr 1
      · split_ifs with h
        · rfl
        · rw [hlow (i - 1) (by omega)]
      · rcases Nat.lt_or_eq_of_le (Nat.le_of_lt_succ hi') with hlt | rfl
        · rw [hlow i hlt]
        · simpa [getD_eq_getElem?_getD] using hmask
    · simp [getShiftedDigit, getD_eq_getElem?_getD]
  · rw [shiftedDigits, length_append, length_singleton, range_succ (n := x.length + 1), List.map_append, map_singleton]
    simp [getShiftedDigit, getD_eq_getElem?_getD]

theorem shiftedSign_or (hs : s < 28) (he : e < bpBigintBase) :
    (if s = 0 then 0 else (bpBigintBase + e) >>> (28 - s)) ||| ((maskLow28 >>> s) <<< s) =
      (if s = 0 then 0 else e >>> (28 - s)) + (bpBigintBase - 2 ^ s) := by
  have hp : bpBigintBase = 2 ^ s * 2 ^ (28 - s) := by
    rw [← pow_add, Nat.add_sub_cancel' (le_of_lt hs)]
    rfl
  have hpos := Nat.two_pow_pos (28 - s)
  have hsub : bpBigintBase - 2 ^ s = 2 ^ s * (2 ^ (28 - s) - 1) := by rw [hp, Nat.mul_sub, mul_one]
  rw [shiftPattern hs, hsub]
  split_ifs with h
  · rw [h]
    rfl
  · have hlow : e >>> (28 - s) < 2 ^ s := by
      rw [Nat.shiftRight_eq_div_pow]
      apply Nat.div_lt_of_lt_mul
      rw [Nat.mul_comm, ← hp]
      exact he
    have htop : (bpBigintBase + e) >>> (28 - s) = 2 ^ s * 1 + e >>> (28 - s) := by
      rw [Nat.shiftRight_eq_div_pow, Nat.shiftRight_eq_div_pow, hp, Nat.mul_comm (2 ^ s), Nat.mul_add_div hpos, mul_one]
    have hcover : 2 ^ s ||| (2 ^ s * (2 ^ (28 - s) - 1)) = 2 ^ s * (2 ^ (28 - s) - 1) := by
      apply Nat.eq_of_testBit_eq
      intro i
      rw [Nat.mul_comm, ← Nat.shiftLeft_eq, Nat.testBit_or, Nat.testBit_two_pow, Nat.testBit_shiftLeft,
        Nat.testBit_two_pow_sub_one]
      by_cases hi : s = i
      · simp [hi, show i < 28 by omega]
      · simp [hi]
    rw [htop, Nat.two_pow_add_eq_or_of_lt hlow, mul_one, Nat.lor_assoc,
      Nat.lor_comm (e >>> (28 - s)), ← Nat.lor_assoc, hcover,
      ← Nat.two_pow_add_eq_or_of_lt hlow, Nat.add_comm]

theorem orLast_append (z : List Nat) (d m : Nat) : orLast (z ++ [d]) m = z ++ [d ||| m] := by
  rw [orLast, dropLast_concat, getLastD_concat]

theorem shiftrDigits_value {x : List Nat} {e : Nat} (hx : Valid bpBigintBase x) (he : e < bpBigintBase)
    (hl : rightShiftBlocks y ≤ x.length + 1) :
    Holds (x.length + 2 - rightShiftBlocks y)
      (orLast ((shiftedDigits (x ++ [bpBigintBase + e]) (leftShiftBits y)).drop (rightShiftBlocks y))
        ((maskLow28 >>> leftShiftBits y) <<< leftShiftBits y))
      (ubigVal (x ++ [e]) / 2 ^ y +
        bpBigintBase ^ (x.length + 1 - rightShiftBlocks y) * (bpBigintBase - 2 ^ leftShiftBits y)) := by
  have hs := (leftShiftBits_spec y).1
  have hx0 : Valid bpBigintBase (x ++ [e]) := valid_append.2 ⟨hx, valid_cons.2 ⟨he, Valid.nil⟩⟩
  obtain ⟨S, t, t0, hS, hS0, rfl, ht0⟩ := shiftedDigits_sign x e (leftShiftBits y)
  have hSl : S.length = x.length + 1 := by
    have := length_shiftedDigits (x ++ [e]) (leftShiftBits y)
    rw [hS0] at this
    simpa using this
  have hdrop : ∀ d, (S ++ [d]).drop (rightShiftBlocks y) = S.drop (rightShiftBlocks y) ++ [d] :=
    fun d => drop_append_of_le_length (by omega)
  have hlow := holds_shiftr hx0 (y := y) (by simpa using hl)
  rw [hS0, hdrop, length_append, length_singleton] at hlow
  have hlowv := hlow.val_eq
  obtain ⟨hvS, hvt⟩ := valid_append.1 hlow.valid
  have hp : 2 ^ leftShiftBits y ≤ bpBigintBase := Nat.pow_le_pow_right (by decide) (le_of_lt hs)
  have ht0lt : t0 < 2 ^ leftShiftBits y := by
    rw [ht0]
    split_ifs with h
    · exact Nat.two_pow_pos _
    · rw [Nat.shiftRight_eq_div_pow]
      apply Nat.div_lt_of_lt_mul
      rw [← pow_add, show 28 - leftShiftBits y + leftShiftBits y = 28 by omega]
      exact he
  rw [hS, hdrop, orLast_append, shiftedSign_or hs he, ← ht0]
  refine ⟨valid_append.2 ⟨hvS, valid_cons.2 ⟨by omega, Valid.nil⟩⟩, ?_, ?_⟩
  · rw [length_append, length_drop, length_singleton, hSl]
    omega
  · rw [ubigVal, Nat.ofDigits_append, Nat.ofDigits_singleton, length_drop, hSl] at hlowv ⊢
    rw [mul_add, ← hlowv]
    omega

theorem isWord_shiftr (hx : IsWord n x v) (hn : 0 < n) (h0 : v < 0) (hv : -(bpBigintBase : Int) ^ n ≤ v)
    (hy : 0 < y) : IsWord n (bpShiftrTwoscomplementInt x y) (v / 2 ^ y) := by
  have hs := leftShiftBits_spec y
  have hpc : ((bpBigintBase ^ n : Nat) : Int) = 2 ^ (28 * n) := by rw [base_pow]; push_cast; rfl
  rw [← Nat.cast_pow] at hv
  have hw := word_of_neg (w := 28 * n) h0 (by rw [← hpc]; exact hv)
  rw [pow_succ, ← hpc, ← hx.val_eq] at hw
  obtain ⟨x, d, rfl, hxl, hxv, hd, hdiff⟩ := split_word hn hx.length hx.wide (by omega)
  obtain ⟨e, rfl⟩ : ∃ e, d = bpBigintBase + e := ⟨d - bpBigintBase, by have := hdiff.2 (by omega); omega⟩
  have he : e < bpBigintBase := by omega
  -- without the sign bit the word is `v` above a power of the base
  have hx0 : (ubigVal (x ++ [e]) : Int) = bpBigintBase ^ n + v := by
    have hp : bpBigintBase ^ n = bpBigintBase ^ x.length * bpBigintBase := by rw [← hxl, pow_succ]
    rw [← Nat.cast_pow]
    rw [ubigVal, Nat.ofDigits_append, Nat.ofDigits_singleton] at hw ⊢
    rw [mul_add, ← hp] at hw
    omega
  unfold bpShiftrTwoscomplementInt
  simp only [length_append, length_singleton]
  split_ifs with hb
  · have hz := shiftrDigits_value hxv he hb
    set z := orLast ((shiftedDigits (x ++ [bpBigintBase + e]) (leftShiftBits y)).drop (rightShiftBlocks y))
      ((maskLow28 >>> leftShiftBits y) <<< leftShiftBits y)
    have hzl := hz.length
    set G := bpBigintBase ^ (n - rightShiftBlocks y) * 2 ^ leftShiftBits y with hG
    have hpow : G * 2 ^ y = bpBigintBase ^ n := by
      rw [hG, mul_assoc, Nat.mul_comm (2 ^ leftShiftBits y), two_pow_mul_leftShiftBits, ← pow_add]
      congr 1
      omega
    have hdiv : ((ubigVal (x ++ [e]) / 2 ^ y : Nat) : Int) = G + v / 2 ^ y := by
      have hL : (ubigVal (x ++ [e]) : Int) = v + G * 2 ^ y := by
        rw [hx0, ← Nat.cast_pow, ← hpow]
        push_cast
        ring
      rw [Int.natCast_div, hL, Nat.cast_pow, Nat.cast_ofNat, Int.add_mul_ediv_right _ _ (by positivity), add_comm]
    refine isWord_setSignBit (valid_append.2 ⟨hz.valid, valid_replicate_mask _⟩) ?_ hn ?_
    · rw [length_append, length_replicate]
      omega
    · have hrep := ubigVal_replicate_mask (x.length + 1 - z.length)
      have hval := hz.val_eq
      have hstep : bpBigintBase ^ (n - rightShiftBlocks y) * (bpBigintBase - 2 ^ leftShiftBits y) + G =
          bpBigintBase ^ z.length := by
        have hle : 2 ^ leftShiftBits y ≤ bpBigintBase := Nat.pow_le_pow_right (by decide) (le_of_lt hs.1)
        rw [hG, ← mul_add, Nat.sub_add_cancel hle, ← pow_succ]
        congr 1
        omega
      have htop : bpBigintBase ^ z.length * (ubigVal (List.replicate (x.length + 1 - z.length) maskLow28) + 1) =
          bpBigintBase ^ n := by
        rw [hrep, ← pow_add]
        congr 1
        omega
      rw [mul_add, mul_one] at htop
      rw [hxl] at hval
      rw [← Nat.cast_pow, ubigVal, Nat.ofDigits_append]
      simp only [ubigVal] at hval htop hdiv ⊢
      omega
  · -- every digit is shifted out and only ones are left
    have hout : v / 2 ^ y = -1 := by
      apply Int.ediv_eq_neg_one_of_neg_of_le h0
      have hle : (2 : Int) ^ (28 * n) ≤ 2 ^ y := pow_le_pow_right₀ (by decide) (by omega)
      omega
    have hrep := ubigVal_replicate_mask n
    rw [nil_append, length_nil, Nat.sub_zero, hxl, hout]
    apply isWord_setSignBit (valid_replicate_mask n) length_replicate hn
    rw [← Nat.cast_pow]
    omega

theorem isUbig_magnitude (hx : IsWord n x v) (hn : 0 < n) (h0 : v < 0) (hv : -(bpBigintBase : Int) ^ n < v) :
    IsUbig (bpTwoscomplementMagnitude x) v.natAbs := by
  have hpc : ((bpBigintBase ^ n : Nat) : Int) = 2 ^ (28 * n) := by rw [base_pow]; push_cast; rfl
  rw [← Nat.cast_pow] at hv
  have hw := word_of_neg (w := 28 * n) h0 (by omega)
  rw [pow_succ, ← hpc, ← hx.val_eq] at hw
  obtain ⟨z, d, rfl, hzl, hz, hd, hdiff⟩ := split_word hn hx.length hx.wide (by omega)
  have hm := bpTwoscomplementMagnitude_spec hz (hdiff.2 (by omega)) hd
  rwa [hzl, if_neg (by omega), show 2 * bpBigintBase ^ n - ubigVal (z ++ [d]) = v.natAbs by omega] at hm

end

/-! ## Bigints -/

/-- `bp_shiftl_bigint_int` for `op2 > 0`; `none` is `et_OUT_OF_MEMORY`. -/
def shiftlDigits (op1 : Bigint) (op2 : Nat) : Option Term :=
  if (op2 : Int) > bpMaxint1W / 10 then none
  else
    let z := bpShiftlUbigInt op1.ds op2
    some (if z.length = 0 then .int 0 else makeNumber op1.sign z)

/-- `bp_shiftr_bigint_int` for `op2 > 0`. -/
def shiftrDigits (op1 : Bigint) (op2 : Nat) : Term :=
  if op1.sign > 0 then
    let z := bpShiftrUbigInt op1.ds op2
    if z.length = 0 then .int 0 else makeNumber 1 z
  else
    let z := bpTwoscomplementMagnitude (bpShiftrTwoscomplementInt (bpTwoscomplementUbig op1.ds) op2)
    if z.length = 0 then .int 0 else makeNumber (-1) z

def bpShiftlBigintInt (op1 : Bigint) (op2 : Int) : Option Term :=
  if op2 < 0 then some (shiftrDigits op1 (-op2).toNat)
  else if op2 = 0 then some (.bigint op1)
  else shiftlDigits op1 op2.toNat

def bpShiftrBigintInt (op1 : Bigint) (op2 : Int) : Option Term :=
  if op2 < 0 then shiftlDigits op1 (-op2).toNat
  else if op2 = 0 then some (.bigint op1)
  else some (shiftrDigits op1 op2.toNat)

section
variable {op1 : Bigint} {v : Int} {n : Nat}

theorem shiftlDigits_denotes (h1 : IsBigint op1 v) (hv : v ≠ 0) (hn : (n : Int) ≤ bpMaxint1W / 10) :
    ∃ t, shiftlDigits op1 n = some t ∧ Denotes t (v * 2 ^ n) := by
  have hz := bpShiftlUbigInt_spec (y := n) h1.ubig (by omega)
  have hne : v.natAbs * 2 ^ n ≠ 0 := Nat.mul_ne_zero (by omega) (ne_of_gt (Nat.two_pow_pos n))
  have hlen : (bpShiftlUbigInt op1.ds n).length ≠ 0 := by
    intro h
    exact hne (hz.eq_nil_iff.1 (length_eq_zero_iff.1 h))
  have hd := makeNumber_denotes hz (IsBigint.sign_cases op1) hne
  unfold shiftlDigits
  refine ⟨_, if_neg (by omega), ?_⟩
  simp only [if_neg hlen]
  have hval : op1.sign * ((v.natAbs * 2 ^ n : Nat) : Int) = v * 2 ^ n := by
    rw [Int.natCast_mul, ← mul_assoc, h1.val_eq]
    push_cast
    rfl
  rwa [hval] at hd

theorem shiftrDigits_denotes (h1 : IsBigint op1 v) (hn : 0 < n) : Denotes (shiftrDigits op1 n) (v / 2 ^ n) := by
  have hval := h1.val_eq
  have hlt := h1.ubig.lt_pow
  simp only [shiftrDigits]
  rcases IsBigint.sign_cases op1 with hs | hs
  · rw [hs, one_mul] at hval
    have hz := bpShiftrUbigInt_spec h1.ubig hn
    have hq : v / 2 ^ n = ((v.natAbs / 2 ^ n : Nat) : Int) := by
      rw [Int.natCast_div, hval]
      push_cast
      rfl
    rw [if_pos (by omega), hq]
    split_ifs with h
    · rw [hz.eq_nil_iff.1 (length_eq_zero_iff.1 h)]
      exact denotes_zero
    · have hd := makeNumber_denotes hz (.inl rfl) (fun h0 => h (by rw [hz.eq_nil_iff.2 h0]; rfl))
      rwa [one_mul] at hd
  · rw [hs, neg_one_mul] at hval
    have hv : v < 0 := by
      have hsign := h1.sign_eq
      rw [hs] at hsign
      split_ifs at hsign
      assumption
    have habs : v.natAbs ≠ 0 := by omega
    have hlen := length_pos_of_ne_nil (fun h => habs (h1.ubig.eq_nil_iff.1 h))
    have hw := bpTwoscomplementUbig_spec h1.ubig.valid rfl (by rw [h1.ubig.val_eq]; exact habs)
    rw [h1.ubig.val_eq, hval] at hw
    have hlow : -(bpBigintBase : Int) ^ op1.ds.length < v := by
      rw [← Nat.cast_pow]
      omega
    have hsh := isWord_shiftr hw hlen (by omega) (le_of_lt hlow) hn
    -- the quotient lies between the number and -1
    have hpos : (0 : Int) < 2 ^ n := by positivity
    have hneg : v / 2 ^ n < 0 := Int.ediv_neg_of_neg_of_pos (by omega) hpos
    have hge : v ≤ v / 2 ^ n := by
      rw [Int.le_ediv_iff_mul_le hpos]
      have h2 : (1 : Int) ≤ 2 ^ n := by omega
      nlinarith
    have hz := isUbig_magnitude hsh hlen hneg (by omega)
    have hd := makeNumber_denotes hz (.inr rfl) (by omega)
    rw [if_neg (by omega), if_neg (fun h => by have := hz.eq_nil_iff.1 (length_eq_zero_iff.1 h); omega)]
    rwa [show -1 * ((v / 2 ^ n).natAbs : Int) = v / 2 ^ n by omega] at hd

end

/-! ## The operators -/

def bpInTinyintRange (op : Int) : Prop := op > -65536 ∧ op < 65536

instance (op : Int) : Decidable (bpInTinyintRange op) := inferInstanceAs (Decidable (_ ∧ _))

/-- `op1 >> op2` on a `BPLONG`: the machine's arithmetic shift takes the low six bits of the count. -/
def machineShiftr (op1 : Int) (op2 : Nat) : Int := op1 >>> (op2 % 64)

/-- `bp_bitwise_shiftl` from the case `op2 > 0` on. -/
def shiftlPositive (op1 : Term) (op2 : Nat) : Option Term :=
  match op1 with
  | .int op1 =>
    if op1 = 0 then some (.int 0)
    else if bpInTinyintRange op1 ∧ op2 ≤ 11 then some (makeint (op1 <<< op2))
    else bpShiftlBigintInt (bpIntToBigint op1) op2
  | .bigint op1 => bpShiftlBigintInt op1 op2

/-- `bp_bitwise_shiftr` from the case `op2 > 0` on. -/
def shiftrPositive (op1 : Term) (op2 : Nat) : Option Term :=
  match op1 with
  | .int op1 =>
    if bpIn28BIntRange op1 then some (makeint (machineShiftr op1 op2))
    else bpShiftrBigintInt (bpIntToBigint op1) op2
  | .bigint op1 => bpShiftrBigintInt op1 op2

/-- `bp_bitwise_shiftl` on integers; `none` is `et_OUT_OF_MEMORY`. A count and its negation both fit a word, so the
two functions call each other at most once. -/
def bpBitwiseShiftl (op1 : Term) : Term → Option Term
  | .int op2 =>
    if op2 < 0 then shiftrPositive op1 (-op2).toNat
    else if op2 = 0 then some op1
    else shiftlPositive op1 op2.toNat
  | .bigint _ => if op1 = .int 0 then some (.int 0) else none

/-- `bp_bitwise_shiftr` on integers. -/
def bpBitwiseShiftr (op1 : Term) : Term → Option Term
  | .int op2 =>
    if op2 = 0 then some op1
    else if op2 < 0 then shiftlPositive op1 (-op2).toNat
    else shiftrPositive op1 op2.toNat
  | .bigint _ => some (.int 0)

/-- `v * 2 ^ n`, for a negative `n` rounded down. -/
def shifted (v n : Int) : Int := if 0 ≤ n then v * 2 ^ n.toNat else v.fdiv (2 ^ (-n).toNat)

/-- Both operators return the canonical shifted number, and on a nonzero word what the bigint paths return. -/
structure ShiftsMeet (x : Number) (n : Int) : Prop where
  left : ∃ t, bpBitwiseShiftl x.term (.int n) = some t ∧ Denotes t (shifted x.val n)
  right : ∃ t, bpBitwiseShiftr x.term (.int n) = some t ∧ Denotes t (shifted x.val (-n))
  agree : ∀ v, x.term = .int v → v ≠ 0 → n ≠ 0 →
    bpBitwiseShiftl x.term (.int n) = bpShiftlBigintInt (bpIntToBigint v) n ∧
      bpBitwiseShiftr x.term (.int n) = bpShiftrBigintInt (bpIntToBigint v) n

/-- The 28-bit words and the counts from 64 on for which the machine's shift leaves bits behind. -/
def ShiftWraps (v : Int) (n : Nat) : Prop :=
  bpIn28BIntRange v ∧ 64 ≤ n ∧ ¬ (-2 ^ (n % 64) ≤ v ∧ v < 2 ^ (n % 64))

section
variable {v : Int} {n : Nat}

theorem ediv_two_pow_of_lt (hl : -2 ^ n ≤ v) (hu : v < 2 ^ n) : v / 2 ^ n = if v < 0 then -1 else 0 := by
  split_ifs with h
  · exact Int.ediv_eq_neg_one_of_neg_of_le h (by omega)
  · exact Int.ediv_eq_zero_of_lt (by omega) hu

theorem machineShiftr_iff (h : bpIn28BIntRange v) : machineShiftr v n = v / 2 ^ n ↔ ¬ ShiftWraps v n := by
  rw [machineShiftr, Int.shiftRight_eq_div_pow]
  unfold ShiftWraps
  push_cast
  by_cases hn : 64 ≤ n
  · have hbig : (2 : Int) ^ 28 ≤ 2 ^ n := pow_le_pow_right₀ (by decide) (by omega)
    have hpos : (0 : Int) < 2 ^ (n % 64) := by positivity
    have hlow : -2 ^ n ≤ v ∧ v < 2 ^ n := by
      unfold bpIn28BIntRange at h
      omega
    rw [ediv_two_pow_of_lt hlow.1 hlow.2, not_and, not_and]
    constructor
    · intro heq _ _
      rw [not_not]
      have hmod := Int.mul_ediv_add_emod v (2 ^ (n % 64))
      have h1 := Int.emod_nonneg v (ne_of_gt hpos)
      have h2 := Int.emod_lt_of_pos v hpos
      rw [heq] at hmod
      split_ifs at hmod <;> omega
    · intro hfit
      have hb := not_not.1 (hfit h hn)
      exact ediv_two_pow_of_lt hb.1 hb.2
  · rw [Nat.mod_eq_of_lt (by omega)]
    simp [hn]

end

section
variable {n : Nat}

theorem shiftlPositive_denotes (x : Number) (hn : 0 < n) (h : x.val = 0 ∨ (n : Int) ≤ bpMaxint1W / 10) :
    ∃ t, shiftlPositive x.term n = some t ∧ Denotes t (x.val * 2 ^ n) := by
  rcases x with ⟨a | a, hx⟩ <;> simp only [Number.val, shiftlPositive] at h ⊢
  · split_ifs with h0 h1
    · refine ⟨_, rfl, ?_⟩
      rw [show Term.val (.int a) = 0 from h0, zero_mul]
      exact denotes_zero
    · refine ⟨_, rfl, ?_⟩
      have hpow : (2 : Int) ^ n ≤ 2 ^ 11 := pow_le_pow_right₀ (by decide) h1.2
      have hpos : (0 : Int) < 2 ^ n := by positivity
      rw [Int.shiftLeft_eq]
      apply denotes_makeint
      have htiny := h1.1
      unfold bpInTinyintRange at htiny
      unfold bpIn1WIntRange
      constructor <;> nlinarith
    · rw [bpShiftlBigintInt, if_neg (by omega), if_neg (by omega), Int.toNat_natCast]
      exact shiftlDigits_denotes (isBigint_bpIntToBigint a) h0 (h.resolve_left h0)
  · have hne := ne_zero_of_canon hx
    rw [bpShiftlBigintInt, if_neg (by omega), if_neg (by omega), Int.toNat_natCast]
    exact shiftlDigits_denotes (isBigint_of_canon hx) hne (h.resolve_left hne)

theorem shiftlPositive_none (x : Number) (h0 : x.val ≠ 0) (h : bpMaxint1W / 10 < n) :
    shiftlPositive x.term n = none := by
  have h11 : ¬ n ≤ 11 := by
    unfold bpMaxint1W at h
    omega
  have hdigits : ∀ b : Bigint, bpShiftlBigintInt b n = none := by
    intro b
    rw [bpShiftlBigintInt, if_neg (by omega), if_neg (by omega), Int.toNat_natCast, shiftlDigits, if_pos h]
  rcases x with ⟨a | a, hx⟩ <;> simp only [Number.val, shiftlPositive] at h0 ⊢
  · rw [if_neg (show ¬ a = 0 from h0), if_neg (fun hc => h11 hc.2)]
    exact hdigits _
  · exact hdigits a

theorem in28B_ediv {v : Int} (h : bpIn28BIntRange v) (n : Nat) : bpIn1WIntRange (v / 2 ^ n) := by
  refine in1W_of_natAbs_le (Int.natAbs_ediv_le_natAbs v (2 ^ n)) (in1W_iff.2 ?_)
  unfold bpIn28BIntRange at h
  omega

theorem shiftrPositive_denotes (x : Number) (hn : 0 < n) (h : ¬ ShiftWraps x.val n) :
    ∃ t, shiftrPositive x.term n = some t ∧ Denotes t (x.val / 2 ^ n) := by
  have hdigits : ∀ b : Bigint, bpShiftrBigintInt b n = some (shiftrDigits b n) := by
    intro b
    rw [bpShiftrBigintInt, if_neg (by omega), if_neg (by omega), Int.toNat_natCast]
  rcases x with ⟨a | a, hx⟩ <;> simp only [Number.val, shiftrPositive] at h ⊢
  · split_ifs with h1
    · rw [(machineShiftr_iff h1).2 h]
      exact ⟨_, rfl, denotes_makeint (in28B_ediv h1 n)⟩
    · rw [hdigits]
      exact ⟨_, rfl, shiftrDigits_denotes (isBigint_bpIntToBigint a) hn⟩
  · rw [hdigits]
    exact ⟨_, rfl, shiftrDigits_denotes (isBigint_of_canon hx) hn⟩

theorem shiftrPositive_wraps (x : Number) (h : ShiftWraps x.val n) :
    ¬ ∃ t, shiftrPositive x.term n = some t ∧ Denotes t (x.val / 2 ^ n) := by
  have h28 := h.1
  intro hp
  obtain ⟨t, ht, hd⟩ := hp
  rcases x with ⟨a | a, hx⟩
  · have h1 : bpIn28BIntRange a := h28
    simp only [shiftrPositive, if_pos h1, Option.some.injEq] at ht
    apply (machineShiftr_iff (n := n) h1).not.2 (not_not.2 h)
    have hfit : bpIn1WIntRange (machineShiftr a n) := by
      rw [machineShiftr, Int.shiftRight_eq_div_pow]
      push_cast
      exact in28B_ediv h1 (n % 64)
    rw [← ht] at hd
    exact (denotes_makeint hfit).2.symm.trans hd.2
  · refine not_in1W_of_canon hx (in1W_iff.2 ?_)
    unfold bpIn28BIntRange at h28
    simp only [Number.val] at h28
    omega

theorem shiftPositive_agree {v : Int} (hn : 0 < n) (hv : v ≠ 0) (hfit : (n : Int) ≤ bpMaxint1W / 10)
    (hl : ∃ t, shiftlPositive (.int v) n = some t ∧ Denotes t (v * 2 ^ n))
    (hr : ∃ t, shiftrPositive (.int v) n = some t ∧ Denotes t (v / 2 ^ n)) :
    shiftlPositive (.int v) n = shiftlDigits (bpIntToBigint v) n ∧
      shiftrPositive (.int v) n = some (shiftrDigits (bpIntToBigint v) n) := by
  obtain ⟨t, ht, hd⟩ := hl
  obtain ⟨u, hu, he⟩ := hr
  obtain ⟨t', ht', hd'⟩ := shiftlDigits_denotes (isBigint_bpIntToBigint v) hv hfit
  rw [ht, hu, ht', hd.unique hd', he.unique (shiftrDigits_denotes (isBigint_bpIntToBigint v) hn)]
  exact ⟨rfl, rfl⟩

theorem shiftPositive_iff (x : Number) (hn : 0 < n) :
    ((∃ t, shiftlPositive x.term n = some t ∧ Denotes t (x.val * 2 ^ n)) ∧
      (∃ t, shiftrPositive x.term n = some t ∧ Denotes t (x.val / 2 ^ n)) ∧
      ∀ v, x.term = .int v → v ≠ 0 → shiftlPositive x.term n = shiftlDigits (bpIntToBigint v) n ∧
        shiftrPositive x.term n = some (shiftrDigits (bpIntToBigint v) n)) ↔
    (x.val = 0 ∨ (n : Int) ≤ bpMaxint1W / 10) ∧ ¬ ShiftWraps x.val n := by
  constructor
  · intro h
    obtain ⟨⟨t, ht, -⟩, hr, -⟩ := h
    refine ⟨?_, fun hw => shiftrPositive_wraps x hw hr⟩
    by_contra hc
    obtain ⟨h0, hlt⟩ := not_or.1 hc
    rw [shiftlPositive_none x h0 (by omega)] at ht
    cases ht
  · intro h
    obtain ⟨hfit, hw⟩ := h
    have hl := shiftlPositive_denotes x hn hfit
    have hr := shiftrPositive_denotes x hn hw
    refine ⟨hl, hr, ?_⟩
    intro v hv h0
    have hval : x.val = v := by rw [Number.val, hv]; rfl
    rw [hval] at hl hr hfit
    rw [hv] at hl hr ⊢
    exact shiftPositive_agree hn h0 (hfit.resolve_left h0) hl hr

/-! ### Counts of either sign -/

section
variable (op1 : Term) (b : Bigint) (v : Int) (hn : 0 < n)
include hn

theorem shift_count :
    bpBitwiseShiftl op1 (.int n) = shiftlPositive op1 n ∧ bpBitwiseShiftr op1 (.int n) = shiftrPositive op1 n ∧
      bpShiftlBigintInt b n = shiftlDigits b n ∧ bpShiftrBigintInt b n = some (shiftrDigits b n) ∧
      shifted v n = v * 2 ^ n := by
  rw [bpBitwiseShiftl, bpBitwiseShiftr, bpShiftlBigintInt, bpShiftrBigintInt, shifted, if_neg (by omega),
    if_neg (by omega), if_neg (by omega), if_neg (by omega), if_neg (by omega), if_neg (by omega),
    if_neg (by omega), if_neg (by omega), if_pos (by omega), Int.toNat_natCast]
  exact ⟨rfl, rfl, rfl, rfl, rfl⟩

theorem shift_neg_count :
    bpBitwiseShiftl op1 (.int (-n)) = shiftrPositive op1 n ∧ bpBitwiseShiftr op1 (.int (-n)) = shiftlPositive op1 n ∧
      bpShiftlBigintInt b (-n) = some (shiftrDigits b n) ∧ bpShiftrBigintInt b (-n) = shiftlDigits b n ∧
      shifted v (-n) = v / 2 ^ n := by
  have hneg : -(n : Int) < 0 := by omega
  rw [bpBitwiseShiftl, bpBitwiseShiftr, bpShiftlBigintInt, bpShiftrBigintInt, shifted, if_pos hneg,
    if_neg (by omega), if_pos hneg, if_pos hneg, if_pos hneg, if_neg (by omega), neg_neg, Int.toNat_natCast,
    Int.fdiv_eq_ediv_of_nonneg _ (by positivity)]
  exact ⟨rfl, rfl, rfl, rfl, rfl⟩

end

end

/-- Where the two operators return the shifted number: the left shift is refused from a tenth of the largest word
on, and the right shift of a 28-bit word by 64 or more uses the count modulo 64. -/
theorem bpBitwiseShift_iff (x : Number) (n : Int) :
    ShiftsMeet x n ↔ (x.val = 0 ∨ |n| ≤ bpMaxint1W / 10) ∧ ¬ ShiftWraps x.val n.natAbs := by
  have habs : |n| = (n.natAbs : Int) := Int.abs_eq_natAbs n
  rw [habs]
  rcases lt_trichotomy n 0 with hn | rfl | hn
  · obtain ⟨k, rfl⟩ : ∃ k : Nat, n = -k := ⟨n.natAbs, by omega⟩
    have hk : 0 < k := by omega
    rw [Int.natAbs_neg, Int.natAbs_natCast, ← shiftPositive_iff x hk]
    have hneg := fun b => shift_neg_count x.term b x.val hk
    have hpos := fun b => shift_count x.term b x.val hk
    obtain ⟨hl, hr, -, -, hv⟩ := hneg (bpIntToBigint 0)
    obtain ⟨-, -, -, -, hv'⟩ := hpos (bpIntToBigint 0)
    constructor
    · intro h
      have hright := h.right
      rw [hr, neg_neg, hv'] at hright
      refine ⟨hright, by rw [← hl, ← hv]; exact h.left, ?_⟩
      intro v hx h0
      obtain ⟨-, -, hbl, hbr, -⟩ := hneg (bpIntToBigint v)
      have ha := h.agree v hx h0 (by omega)
      rw [hl, hr, hbl, hbr] at ha
      exact ⟨ha.2, ha.1⟩
    · intro hp
      obtain ⟨h1, h2, h3⟩ := hp
      refine ⟨by rw [hl, hv]; exact h2, by rw [hr, neg_neg, hv']; exact h1, ?_⟩
      intro v hx h0 _
      obtain ⟨-, -, hbl, hbr, -⟩ := hneg (bpIntToBigint v)
      rw [hl, hr, hbl, hbr]
      exact ⟨(h3 v hx h0).2, (h3 v hx h0).1⟩
  · have hw : ¬ ShiftWraps x.val (Int.natAbs 0) := fun h => absurd h.2.1 (by decide)
    have hden : Denotes x.term (shifted x.val 0) := by
      rw [shifted, if_pos (le_refl _)]
      exact ⟨x.canon, by simp [Number.val]⟩
    refine iff_of_true ⟨⟨x.term, rfl, hden⟩, ⟨x.term, rfl, ?_⟩, fun _ _ _ h => absurd rfl h⟩ ⟨.inr ?_, hw⟩
    · rw [neg_zero]
      exact hden
    · decide
  · obtain ⟨k, rfl⟩ : ∃ k : Nat, n = k := ⟨n.natAbs, by omega⟩
    have hk : 0 < k := by omega
    rw [Int.natAbs_natCast, ← shiftPositive_iff x hk]
    have hpos := fun b => shift_count x.term b x.val hk
    obtain ⟨hl, hr, -, -, hv⟩ := hpos (bpIntToBigint 0)
    obtain ⟨-, -, -, -, hv'⟩ := shift_neg_count x.term (bpIntToBigint 0) x.val hk
    constructor
    · intro h
      refine ⟨by rw [← hl, ← hv]; exact h.left, by rw [← hr, ← hv']; exact h.right, ?_⟩
      intro v hx h0
      obtain ⟨-, -, hbl, hbr, -⟩ := hpos (bpIntToBigint v)
      have ha := h.agree v hx h0 (by omega)
      rwa [hl, hr, hbl, hbr] at ha
    · intro hp
      obtain ⟨h1, h2, h3⟩ := hp
      refine ⟨by rw [hl, hv]; exact h1, by rw [hr, hv']; exact h2, ?_⟩
      intro v hx h0 _
      obtain ⟨-, -, hbl, hbr, -⟩ := hpos (bpIntToBigint v)
      rw [hl, hr, hbl, hbr]
      exact h3 v hx h0

/-- `5 >> 64` is `5`. -/
theorem bpBitwiseShiftr_five_64 : ¬ ∀ (x : Number) (n : Int), bpIn1WIntRange n → ShiftsMeet x n := by
  intro h
  have h5 := h ⟨.int 5, by unfold Term.Canon; decide⟩ 64 (by decide)
  obtain ⟨t, ht, hd⟩ := h5.right
  have hsh : bpBitwiseShiftr (.int 5) (.int 64) = some (.int 5) := by decide
  rw [show Term.int 5 = (⟨.int 5, by unfold Term.Canon; decide⟩ : Number).term from rfl] at hsh
  rw [hsh] at ht
  have hv := hd.2
  rw [← Option.some.inj ht] at hv
  exact absurd hv (by decide)

end Picat
