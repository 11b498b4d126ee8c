import Picat.Lib.Digits
import Mathlib.Analysis.SpecialFunctions.Log.Base

/-!
# Constraints over bit vectors

A result vector is given, or it is a variable that the call binds to a new vector. An error is a failure here.

* `bv_meets_iff` : when all constraints are.
-/

namespace Picat.BitVector
open Finset List

/-- `bv(Sign,M)`, with the values of the bits. -/
structure Bv where
  sign : ℕ
  m : List Bool

def bvGetBit (M : List Bool) (I Max : ℕ) : Bool := if Max < I then false else M.getD (I - 1) false

inductive BitOp where
  | and
  | or
  | xor

def bvBitOp : BitOp → Bool → Bool → Bool
  | .xor, B1, B2 => B1 ^^ B2
  | .or, B1, B2 => B1 || B2
  | .and, B1, B2 => B1 && B2

/-! ## Loops -/

def bvEqUnsigned (M1 : List Bool) (I1 Max1 : ℕ) (M2 : List Bool) (I2 Max2 : ℕ) : Prop :=
  if Max1 < I1 ∧ Max2 < I2 then True
  else bvGetBit M1 I1 Max1 = bvGetBit M2 I2 Max2 ∧ bvEqUnsigned M1 (I1 + 1) Max1 M2 (I2 + 1) Max2
termination_by Max1 + 1 - I1 + (Max2 + 1 - I2)

def bvConstrainUnsigned3 (OP : BitOp) (M1 : List Bool) (I1 Max1 : ℕ) (M2 : List Bool) (I2 Max2 : ℕ) (M3 : List Bool)
    (I3 Max3 : ℕ) : Prop :=
  if Max1 < I1 ∧ Max2 < I2 ∧ Max3 < I3 then True
  else bvGetBit M3 I3 Max3 = bvBitOp OP (bvGetBit M1 I1 Max1) (bvGetBit M2 I2 Max2) ∧
    bvConstrainUnsigned3 OP M1 (I1 + 1) Max1 M2 (I2 + 1) Max2 M3 (I3 + 1) Max3
termination_by Max1 + 1 - I1 + (Max2 + 1 - I2) + (Max3 + 1 - I3)

def bvAddUnsigned (M1 : List Bool) (I1 Max1 : ℕ) (M2 : List Bool) (I2 Max2 : ℕ) (M3 : List Bool) (I3 Max3 : ℕ)
    (Cin : Bool) : Prop :=
  if Max1 < I1 ∧ Max2 < I2 ∧ Max3 < I3 then Cin = false
  else ∃ Cout : Bool, (bvGetBit M1 I1 Max1).toNat + (bvGetBit M2 I2 Max2).toNat + Cin.toNat =
      2 * Cout.toNat + (bvGetBit M3 I3 Max3).toNat ∧
    bvAddUnsigned M1 (I1 + 1) Max1 M2 (I2 + 1) Max2 M3 (I3 + 1) Max3 Cout
termination_by Max1 + 1 - I1 + (Max2 + 1 - I2) + (Max3 + 1 - I3)

def bvReifNeqUnsigned (M1 : List Bool) (Max1 : ℕ) (M2 : List Bool) (Max2 : ℕ) (M3 : List Bool) (Max3 I : ℕ) : Prop :=
  if Max1 < I ∧ Max2 < I ∧ Max3 < I then True
  else (bvGetBit M3 I Max3 = true ↔ bvGetBit M1 I Max1 ≠ bvGetBit M2 I Max2) ∧
    bvReifNeqUnsigned M1 Max1 M2 Max2 M3 Max3 (I + 1)
termination_by Max1 + 1 - I + (Max2 + 1 - I) + (Max3 + 1 - I)

/-! ## Constraints -/

/-- `RBV` is `none` when it is a variable before the call, which binds it to a new vector of `RSize` bits; else it is the
vector, whose sign is tested. -/
def Bound (RBV : Option Bv) (Sign RSize : ℕ) (givenSign : ℕ → Prop) (R : Bv) : Prop :=
  match RBV with
  | none => R.sign = Sign ∧ R.m.length = RSize
  | some B => R = B ∧ givenSign B.sign

section
variable (BV BV1 BV2 : Bv) (I : ℕ) (RBV : Option Bv) (R : Bv)

def bvLshift : Prop :=
  Bound RBV BV.sign (BV.m.length + I) (fun s => s = 0) R ∧ (∀ Pos ∈ Icc 1 I, bvGetBit R.m Pos R.m.length = false) ∧
      bvEqUnsigned BV.m 1 BV.m.length R.m (I + 1) R.m.length

/-- When nothing is left of the vector, the variable is bound to the array `{0}` instead of a vector, and the access to the
bits of the result raises an error. -/
def bvRshift : Prop :=
  BV.sign = 0 ∧ (RBV = none → 0 < (BV.m.length : ℤ) - I) ∧
    Bound RBV 0 (BV.m.length - I) (fun s => s = 0) R ∧ bvEqUnsigned BV.m (I + 1) BV.m.length R.m 1 R.m.length

def bvAnd : Prop :=
  BV1.sign = BV2.sign ∧ Bound RBV BV1.sign (max BV1.m.length BV2.m.length) (fun s => s = BV1.sign) R ∧
    bvConstrainUnsigned3 .and BV1.m 1 BV1.m.length BV2.m 1 BV2.m.length R.m 1 R.m.length

def bvOr : Prop :=
  BV1.sign = BV2.sign ∧ Bound RBV BV1.sign (max BV1.m.length BV2.m.length) (fun _ => True) R ∧
    bvConstrainUnsigned3 .or BV1.m 1 BV1.m.length BV2.m 1 BV2.m.length R.m 1 R.m.length

def bvXor : Prop :=
  BV1.sign = BV2.sign ∧ Bound RBV BV1.sign (max BV1.m.length BV2.m.length) (fun _ => True) R ∧
    bvConstrainUnsigned3 .xor BV1.m 1 BV1.m.length BV2.m 1 BV2.m.length R.m 1 R.m.length

def bvAdd : Prop :=
  BV1.sign = BV2.sign ∧ Bound RBV BV1.sign (max BV1.m.length BV2.m.length + 1) (fun s => s = BV1.sign) R ∧
    bvAddUnsigned BV1.m 1 BV1.m.length BV2.m 1 BV2.m.length R.m 1 R.m.length false

def bvEq : Prop := BV1.sign = BV2.sign ∧ bvEqUnsigned BV1.m 1 BV1.m.length BV2.m 1 BV2.m.length

/-- `F[Size+1]` is the Boolean of the signs. -/
def bvNeq : Prop :=
  let Size := max BV1.m.length BV2.m.length
  ∃ F : List Bool, F.length = Size + 1 ∧ (F.getD Size false = true ↔ BV1.sign ≠ BV2.sign) ∧
    bvReifNeqUnsigned BV1.m BV1.m.length BV2.m BV2.m.length F Size 1 ∧ 0 < F.count true

end

/-! ## Conversions -/

/-- The loop over the `K` positions. -/
def radixDigits : ℕ → ℕ → List Bool
  | _, 0 => []
  | Val, K + 1 => decide (Val % 2 = 1) :: radixDigits (Val / 2) K

/-- `uint_to_radix(Val,2,DVect)`, where `round(log(2,Val)+0.5)` is the integer part of `log(2,Val)`, plus 1. -/
def uintToRadix (Val : ℕ) : List Bool := if Val = 0 then [false] else radixDigits Val (Nat.log 2 Val + 1)

def intToBv (X : ℤ) : Bv :=
  if 0 ≤ X then ⟨0, uintToRadix X.toNat⟩ else ⟨1, uintToRadix (-X).toNat⟩

def radixToUint (DVect : List Bool) : ℕ → ℕ → ℕ
  | 0, Val0 => Val0
  | I + 1, Val0 => radixToUint DVect I (Val0 * 2 + (DVect.getD I false).toNat)

def bvToInt (BV : Bv) : ℤ :=
  let Val := radixToUint BV.m BV.m.length 0
  if BV.sign = 0 then Val else -Val

open BitLists

/-! ## Positions -/

/-- The number that the bits from position `I` on make. -/
def rest (M : List Bool) (I : ℕ) : ℕ := value M >>> (I - 1)

section
variable {M : List Bool} {I : ℕ}

theorem rest_one : rest M 1 = value M := rfl

theorem bvGetBit_eq (h1 : 1 ≤ I) : bvGetBit M I M.length = (value M).testBit (I - 1) := by
  unfold bvGetBit
  rw [testBit_value]
  split_ifs with hlt
  · rw [getD_eq_default _ _ (by omega)]
  · rfl

theorem rest_eq (h1 : 1 ≤ I) : rest M I = 2 * rest M (I + 1) + (bvGetBit M I M.length).toNat := by
  obtain ⟨I, rfl⟩ := Nat.exists_eq_add_of_le' h1
  rw [bvGetBit_eq h1]
  unfold rest
  rw [Nat.add_sub_cancel, Nat.add_sub_cancel, Nat.shiftRight_succ, Nat.testBit_eq_decide_div_mod_eq,
    ← Nat.shiftRight_eq_div_pow]
  have := Nat.mod_two_eq_zero_or_one (value M >>> I)
  by_cases hodd : value M >>> I % 2 = 1
  · rw [decide_eq_true hodd, Bool.toNat_true]
    omega
  · rw [decide_eq_false hodd, Bool.toNat_false]
    omega

theorem testBit_rest_zero (h1 : 1 ≤ I) : (rest M I).testBit 0 = bvGetBit M I M.length := by
  rw [bvGetBit_eq h1]
  exact Nat.testBit_shiftRight ..

theorem testBit_rest_succ (h1 : 1 ≤ I) (k : ℕ) : (rest M I).testBit (k + 1) = (rest M (I + 1)).testBit k := by
  unfold rest
  rw [Nat.testBit_shiftRight, Nat.testBit_shiftRight]
  congr 1
  omega

theorem rest_of_lt (h : M.length < I) : rest M I = 0 := by
  unfold rest
  rw [Nat.shiftRight_eq_div_pow]
  apply Nat.div_eq_of_lt
  exact (value_lt M).trans_le (Nat.pow_le_pow_right Nat.two_pos (by omega))

end

/-! ## Loops -/

variable {OP : BitOp} {givenSign : ℕ → Prop} {v : ℕ}

section
variable {M1 M2 M3 : List Bool} {I1 I2 I3 : ℕ}

theorem bvEqUnsigned_iff (h1 : 1 ≤ I1) (h2 : 1 ≤ I2) :
    bvEqUnsigned M1 I1 M1.length M2 I2 M2.length ↔ rest M1 I1 = rest M2 I2 := by
  induction hn : M1.length + 1 - I1 + (M2.length + 1 - I2) using Nat.strong_induction_on generalizing I1 I2 with
  | _ n ih =>
    rw [bvEqUnsigned]
    split_ifs with hend
    · rw [rest_of_lt hend.1, rest_of_lt hend.2]
      exact iff_of_true trivial rfl
    · rw [ih _ (by omega) (Nat.le_succ_of_le h1) (Nat.le_succ_of_le h2) rfl, rest_eq h1, rest_eq h2]
      cases bvGetBit M1 I1 M1.length <;> cases bvGetBit M2 I2 M2.length <;> simp <;> omega

theorem bvConstrainUnsigned3_iff (h1 : 1 ≤ I1) (h2 : 1 ≤ I2) (h3 : 1 ≤ I3) :
    bvConstrainUnsigned3 OP M1 I1 M1.length M2 I2 M2.length M3 I3 M3.length ↔
      ∀ k, (rest M3 I3).testBit k = bvBitOp OP ((rest M1 I1).testBit k) ((rest M2 I2).testBit k) := by
  induction hn : M1.length + 1 - I1 + (M2.length + 1 - I2) + (M3.length + 1 - I3) using Nat.strong_induction_on
    generalizing I1 I2 I3 with
  | _ n ih =>
    rw [bvConstrainUnsigned3]
    split_ifs with hend
    · rw [rest_of_lt hend.1, rest_of_lt hend.2.1, rest_of_lt hend.2.2]
      apply iff_of_true trivial
      intro k
      rw [Nat.zero_testBit]
      cases OP <;> rfl
    · rw [ih _ (by omega) (Nat.le_succ_of_le h1) (Nat.le_succ_of_le h2) (Nat.le_succ_of_le h3) rfl,
        ← testBit_rest_zero h1, ← testBit_rest_zero h2, ← testBit_rest_zero h3]
      simp only [← testBit_rest_succ h1, ← testBit_rest_succ h2, ← testBit_rest_succ h3]
      exact Nat.and_forall_add_one (p := fun k =>
        (rest M3 I3).testBit k = bvBitOp OP ((rest M1 I1).testBit k) ((rest M2 I2).testBit k))

theorem bvAddUnsigned_iff {Cin : Bool} (h1 : 1 ≤ I1) (h2 : 1 ≤ I2) (h3 : 1 ≤ I3) :
    bvAddUnsigned M1 I1 M1.length M2 I2 M2.length M3 I3 M3.length Cin ↔
      rest M1 I1 + rest M2 I2 + Cin.toNat = rest M3 I3 := by
  induction hn : M1.length + 1 - I1 + (M2.length + 1 - I2) + (M3.length + 1 - I3) using Nat.strong_induction_on
    generalizing I1 I2 I3 Cin with
  | _ n ih =>
    rw [bvAddUnsigned]
    split_ifs with hend
    · rw [rest_of_lt hend.1, rest_of_lt hend.2.1, rest_of_lt hend.2.2]
      cases Cin <;> decide
    · have hrest : ∀ Cout, (bvAddUnsigned M1 (I1 + 1) M1.length M2 (I2 + 1) M2.length M3 (I3 + 1) M3.length Cout ↔
          rest M1 (I1 + 1) + rest M2 (I2 + 1) + Cout.toNat = rest M3 (I3 + 1)) := fun Cout =>
        ih _ (by omega) (Nat.le_succ_of_le h1) (Nat.le_succ_of_le h2) (Nat.le_succ_of_le h3) rfl
      simp only [hrest]
      rw [rest_eq h1, rest_eq h2, rest_eq h3]
      have hB1 := Bool.toNat_le (bvGetBit M1 I1 M1.length)
      have hB2 := Bool.toNat_le (bvGetBit M2 I2 M2.length)
      have hB3 := Bool.toNat_le (bvGetBit M3 I3 M3.length)
      have hCin := Bool.toNat_le Cin
      rw [Bool.exists_bool, Bool.toNat_false, Bool.toNat_true]
      omega

theorem bvReifNeqUnsigned_iff {F : List Bool} {Size I : ℕ} : bvReifNeqUnsigned M1 M1.length M2 M2.length F Size I ↔
      ∀ k ≥ I, (bvGetBit F k Size = true ↔ bvGetBit M1 k M1.length ≠ bvGetBit M2 k M2.length) := by
  induction hn : M1.length + 1 - I + (M2.length + 1 - I) + (Size + 1 - I) using Nat.strong_induction_on generalizing I with
  | _ n ih =>
    rw [bvReifNeqUnsigned]
    split_ifs with hend
    · apply iff_of_true trivial
      intro k hk
      unfold bvGetBit
      rw [if_pos (by omega), if_pos (by omega), if_pos (by omega)]
      exact iff_of_false Bool.false_ne_true fun h => h rfl
    · rw [ih _ (by omega) rfl]
      constructor
      · intro h k hk
        rcases Nat.eq_or_lt_of_le hk with rfl | hlt
        · exact h.1
        · exact h.2 k hlt
      · intro h
        exact ⟨h I (le_refl I), fun k hk => h k (Nat.le_of_succ_le hk)⟩

theorem bvNeq_iff {BV1 BV2 : Bv} (h1 : BV1.sign = 0) (h2 : BV2.sign = 0) :
    bvNeq BV1 BV2 ↔ value BV1.m ≠ value BV2.m := by
  unfold bvNeq
  dsimp only
  have hsigns : ¬ BV1.sign ≠ BV2.sign := not_not.2 (h1.trans h2.symm)
  constructor
  · intro h heq
    obtain ⟨F, hlen, hlast, hreif, hpos⟩ := h
    obtain ⟨i, hi, htrue⟩ := List.getElem_of_mem (List.count_pos_iff.1 hpos)
    have hget : F.getD i false = true := (List.getD_eq_getElem F false hi).trans htrue
    by_cases hSize : i = max BV1.m.length BV2.m.length
    · rw [hSize] at hget
      exact hsigns (hlast.1 hget)
    · have hbit : bvGetBit F (i + 1) (max BV1.m.length BV2.m.length) = true := by
        unfold bvGetBit
        rw [if_neg (by omega)]
        exact hget
      have hne := (bvReifNeqUnsigned_iff.1 hreif (i + 1) (Nat.le_add_left 1 i)).1 hbit
      rw [bvGetBit_eq (Nat.le_add_left 1 i), bvGetBit_eq (Nat.le_add_left 1 i), heq] at hne
      exact hne rfl
  · intro hne
    obtain ⟨i, hi⟩ := Nat.exists_testBit_ne_of_ne hne
    have hSize : i < max BV1.m.length BV2.m.length := by
      by_contra hge
      rw [testBit_value, testBit_value, List.getD_eq_default _ _ (by omega), List.getD_eq_default _ _ (by omega)] at hi
      exact hi rfl
    refine ⟨(List.range (max BV1.m.length BV2.m.length)).map (fun i => (value BV1.m).testBit i ^^ (value BV2.m).testBit i) ++
      [false], ?_, ?_, ?_, ?_⟩
    · rw [List.length_append, List.length_map, List.length_range]
      rfl
    · rw [List.getD_append_right _ _ _ _ (by rw [List.length_map, List.length_range]), List.length_map, List.length_range,
        Nat.sub_self]
      exact iff_of_false Bool.false_ne_true hsigns
    · apply bvReifNeqUnsigned_iff.2
      intro k hk
      rw [bvGetBit_eq hk, bvGetBit_eq hk]
      unfold bvGetBit
      split_ifs with hlt
      · rw [testBit_value, testBit_value, List.getD_eq_default _ _ (by omega), List.getD_eq_default _ _ (by omega)]
        exact iff_of_false id fun h => h rfl
      · have hlen : k - 1 < ((List.range (max BV1.m.length BV2.m.length)).map fun i =>
            (value BV1.m).testBit i ^^ (value BV2.m).testBit i).length := by
          rw [List.length_map, List.length_range]
          omega
        rw [List.getD_append _ _ _ _ hlen, List.getD_eq_getElem _ _ hlen, List.getElem_map, List.getElem_range]
        exact bne_iff_ne
    · apply List.count_pos_iff.2
      apply List.mem_append_left
      exact List.mem_map.2 ⟨i, List.mem_range.2 hSize, bne_iff_ne.2 hi⟩

end

/-! ## Conversions -/

theorem log_eq_round (Val : ℕ) : ((Nat.log 2 Val + 1 : ℕ) : ℤ) = round (Real.logb 2 Val + 1 / 2) := by
  have hfloor := @Real.floor_logb_natCast 2 (Val : ℝ) (Nat.cast_nonneg Val)
  rw [Int.log_natCast] at hfloor
  rw [round_eq, add_assoc, add_halves, Int.floor_add_one, Nat.cast_succ]
  exact congrArg (· + 1) hfloor.symm

theorem value_radixDigits (Val K : ℕ) : value (radixDigits Val K) = Val % 2 ^ K := by
  induction K generalizing Val with
  | zero => exact (Nat.mod_one Val).symm
  | succ K ih =>
    unfold radixDigits
    rw [value_cons, ih, Nat.pow_succ', Nat.mod_mul]
    congr 1
    rcases Nat.mod_two_eq_zero_or_one Val with h | h <;> rw [h] <;> rfl

theorem value_uintToRadix (Val : ℕ) : value (uintToRadix Val) = Val := by
  unfold uintToRadix
  split_ifs with h
  · exact h.symm
  · rw [value_radixDigits]
    exact Nat.mod_eq_of_lt (Nat.lt_pow_succ_log_self one_lt_two Val)

theorem radixToUint_eq (M : List Bool) {I : ℕ} (hI : I ≤ M.length) (Val0 : ℕ) :
    radixToUint M I Val0 = Val0 * 2 ^ I + value (M.take I) := by
  induction I generalizing Val0 with
  | zero => rw [radixToUint, Nat.pow_zero, Nat.mul_one, take_zero, value_nil, Nat.add_zero]
  | succ I ih =>
    have htake : M.take (I + 1) = M.take I ++ [M.getD I false] := by
      rw [take_add_one, List.getElem?_eq_getElem hI, getD_eq_getElem _ _ hI]
      rfl
    rw [radixToUint, ih (Nat.le_of_succ_le hI), htake, value_concat, length_take_of_le (Nat.le_of_succ_le hI)]
    ring

theorem bvToInt_eq (BV : Bv) : bvToInt BV = if BV.sign = 0 then (value BV.m : ℤ) else -value BV.m := by
  unfold bvToInt
  rw [radixToUint_eq BV.m (le_refl _), take_length, Nat.zero_mul, Nat.zero_add]

theorem bvToInt_intToBv (n : ℤ) : bvToInt (intToBv n) = n := by
  rw [bvToInt_eq]
  unfold intToBv
  by_cases h0 : 0 ≤ n
  · rw [if_pos h0, if_pos rfl, value_uintToRadix]
    exact Int.toNat_of_nonneg h0
  · rw [if_neg h0, if_neg one_ne_zero, value_uintToRadix]
    omega

/-! ## Results -/

/-- The result is `v`, for a given vector and for a variable; the new vector has bits enough for it. -/
structure Denotes (rel : Option Bv → Bv → Prop) (RSize v : ℕ) : Prop where
  given : ∀ B : Bv, B.sign = 0 → ∀ R, rel (some B) R ↔ R = B ∧ value B.m = v
  room : v < 2 ^ RSize
  unbound : ∀ R, rel none R ↔ R.sign = 0 ∧ R.m.length = RSize ∧ value R.m = v

theorem bound_given {B R : Bv} {core : List Bool → Prop} {RSize : ℕ}
    (hcore : ∀ M, core M ↔ value M = v) (hsign : givenSign B.sign) :
    Bound (some B) 0 RSize givenSign R ∧ core R.m ↔ R = B ∧ value B.m = v := by
  rw [hcore]
  constructor
  · rintro ⟨⟨rfl, -⟩, hval⟩
    exact ⟨rfl, hval⟩
  · rintro ⟨rfl, hval⟩
    exact ⟨⟨rfl, hsign⟩, hval⟩

theorem denotes_of_core {rel : Option Bv → Bv → Prop} {core : List Bool → Prop} {RSize : ℕ}
    (hrel : ∀ RBV R, rel RBV R ↔ Bound RBV 0 RSize givenSign R ∧ core R.m) (hcore : ∀ M, core M ↔ value M = v)
    (hsign : givenSign 0) (hroom : v < 2 ^ RSize) : Denotes rel RSize v := by
  refine ⟨?_, hroom, ?_⟩
  · intro B hB R
    rw [hrel]
    rw [← hB] at hsign
    exact bound_given hcore hsign
  · intro R
    rw [hrel, hcore]
    exact and_assoc

section
variable {x y M : List Bool} {I : ℕ}

theorem lshift_iff : ((∀ Pos ∈ Icc 1 I, bvGetBit M Pos M.length = false) ∧ bvEqUnsigned x 1 x.length M (I + 1) M.length) ↔
    value M = value x * 2 ^ I := by
  rw [bvEqUnsigned_iff (le_refl 1) (Nat.le_add_left 1 I), rest_one]
  unfold rest
  rw [Nat.add_sub_cancel, Nat.shiftRight_eq_div_pow]
  have hlow : (∀ Pos ∈ Icc 1 I, bvGetBit M Pos M.length = false) ↔ value M % 2 ^ I = 0 := by
    constructor
    · intro h
      apply Nat.eq_of_testBit_eq
      intro i
      rw [Nat.testBit_mod_two_pow, Nat.zero_testBit]
      by_cases hi : i < I
      · have hbit := h (i + 1) (mem_Icc.2 ⟨Nat.le_add_left 1 i, hi⟩)
        rw [bvGetBit_eq (Nat.le_add_left 1 i), Nat.add_sub_cancel] at hbit
        rw [hbit, Bool.and_false]
      · rw [decide_eq_false hi, Bool.false_and]
    · intro h Pos hPos
      obtain ⟨h1, hI⟩ := mem_Icc.1 hPos
      have hbit := Nat.testBit_mod_two_pow (value M) I (Pos - 1)
      rw [h, Nat.zero_testBit, decide_eq_true (by omega), Bool.true_and] at hbit
      rw [bvGetBit_eq h1]
      exact hbit.symm
  rw [hlow]
  have hpos : 0 < 2 ^ I := Nat.two_pow_pos I
  constructor
  · intro ⟨hmod, hdiv⟩
    rw [hdiv, Nat.div_mul_cancel (Nat.dvd_of_mod_eq_zero hmod)]
  · intro hval
    rw [hval]
    exact ⟨Nat.mul_mod_left _ _, (Nat.mul_div_cancel _ hpos).symm⟩

theorem rshift_iff : bvEqUnsigned x (I + 1) x.length M 1 M.length ↔ value M = value x / 2 ^ I := by
  rw [bvEqUnsigned_iff (Nat.le_add_left 1 I) (le_refl 1), rest_one]
  unfold rest
  rw [Nat.add_sub_cancel, Nat.shiftRight_eq_div_pow]
  exact eq_comm

theorem bitwise_iff (hv : ∀ k, v.testBit k = bvBitOp OP ((value x).testBit k) ((value y).testBit k)) :
    bvConstrainUnsigned3 OP x 1 x.length y 1 y.length M 1 M.length ↔ value M = v := by
  rw [bvConstrainUnsigned3_iff (le_refl 1) (le_refl 1) (le_refl 1), rest_one, rest_one, rest_one]
  constructor
  · intro h
    apply Nat.eq_of_testBit_eq
    intro k
    rw [h, hv]
  · intro h k
    rw [h, hv]

theorem add_iff : bvAddUnsigned x 1 x.length y 1 y.length M 1 M.length false ↔ value M = value x + value y := by
  rw [bvAddUnsigned_iff (le_refl 1) (le_refl 1) (le_refl 1), rest_one, rest_one, rest_one]
  exact eq_comm

theorem value_lt_max : value x < 2 ^ max x.length y.length ∧ value y < 2 ^ max x.length y.length :=
  ⟨(value_lt x).trans_le (Nat.pow_le_pow_right Nat.two_pos (le_max_left _ _)),
    (value_lt y).trans_le (Nat.pow_le_pow_right Nat.two_pos (le_max_right _ _))⟩

end

/-- All constraints but the shift to the right with an unbound result, for the vectors `x` and `y`, and the conversions. -/
structure ExactButRshift (x y : List Bool) (I : ℕ) (n : ℤ) : Prop where
  lshift : Denotes (bvLshift ⟨0, x⟩ I) (x.length + I) (value x * 2 ^ I)
  rshift : ∀ B : Bv, B.sign = 0 → ∀ R, bvRshift ⟨0, x⟩ I (some B) R ↔ R = B ∧ value B.m = value x / 2 ^ I
  and : Denotes (bvAnd ⟨0, x⟩ ⟨0, y⟩) (max x.length y.length) (value x &&& value y)
  or : Denotes (bvOr ⟨0, x⟩ ⟨0, y⟩) (max x.length y.length) (value x ||| value y)
  xor : Denotes (bvXor ⟨0, x⟩ ⟨0, y⟩) (max x.length y.length) (value x ^^^ value y)
  add : Denotes (bvAdd ⟨0, x⟩ ⟨0, y⟩) (max x.length y.length + 1) (value x + value y)
  eq : bvEq ⟨0, x⟩ ⟨0, y⟩ ↔ value x = value y
  neq : bvNeq ⟨0, x⟩ ⟨0, y⟩ ↔ value x ≠ value y
  conversion : bvToInt (intToBv n) = n

section
variable (x y : List Bool) (I : ℕ)

theorem denotes_lshift : Denotes (bvLshift ⟨0, x⟩ I) (x.length + I) (value x * 2 ^ I) := by
  have hrel : ∀ RBV R, bvLshift ⟨0, x⟩ I RBV R ↔ Bound RBV 0 (x.length + I) (fun s => s = 0) R ∧
      ((∀ Pos ∈ Icc 1 I, bvGetBit R.m Pos R.m.length = false) ∧ bvEqUnsigned x 1 x.length R.m (I + 1) R.m.length) :=
    fun RBV R => Iff.rfl
  have hroom : value x * 2 ^ I < 2 ^ (x.length + I) := by
    rw [Nat.pow_add]
    exact Nat.mul_lt_mul_of_pos_right (value_lt x) (Nat.two_pow_pos I)
  apply denotes_of_core hrel (fun M => lshift_iff) ?_ hroom
  rfl

theorem denotes_bitwise {rel : Option Bv → Bv → Prop}
    (hrel : ∀ RBV R, rel RBV R ↔ (0 : ℕ) = 0 ∧ Bound RBV 0 (max x.length y.length) givenSign R ∧
      bvConstrainUnsigned3 OP x 1 x.length y 1 y.length R.m 1 R.m.length)
    (hsign : givenSign 0) (hv : ∀ k, v.testBit k = bvBitOp OP ((value x).testBit k) ((value y).testBit k))
    (hroom : v < 2 ^ max x.length y.length) : Denotes rel (max x.length y.length) v := by
  have hcall : ∀ RBV R, rel RBV R ↔ Bound RBV 0 (max x.length y.length) givenSign R ∧
      bvConstrainUnsigned3 OP x 1 x.length y 1 y.length R.m 1 R.m.length := fun RBV R =>
    (hrel RBV R).trans (and_iff_right rfl)
  exact denotes_of_core hcall (fun M => bitwise_iff hv) hsign hroom

theorem denotes_add : Denotes (bvAdd ⟨0, x⟩ ⟨0, y⟩) (max x.length y.length + 1) (value x + value y) := by
  have hcall : ∀ RBV R, bvAdd ⟨0, x⟩ ⟨0, y⟩ RBV R ↔ Bound RBV 0 (max x.length y.length + 1) (fun s => s = 0) R ∧
      bvAddUnsigned x 1 x.length y 1 y.length R.m 1 R.m.length false := fun RBV R => and_iff_right rfl
  have hroom : value x + value y < 2 ^ (max x.length y.length + 1) := by
    obtain ⟨hx, hy⟩ := @value_lt_max x y
    rw [Nat.pow_succ]
    omega
  apply denotes_of_core hcall (fun M => add_iff) ?_ hroom
  rfl

theorem exactButRshift (n : ℤ) : ExactButRshift x y I n := by
  obtain ⟨hx, hy⟩ := @value_lt_max x y
  constructor
  · exact denotes_lshift x I
  · intro B hB R
    have hcall : bvRshift ⟨0, x⟩ I (some B) R ↔ Bound (some B) 0 (x.length - I) (fun s => s = 0) R ∧
        bvEqUnsigned x (I + 1) x.length R.m 1 R.m.length := by
      unfold bvRshift
      rw [and_iff_right rfl, and_iff_right fun hnone => absurd hnone (Option.some_ne_none B)]
    rw [hcall]
    exact bound_given (fun M => rshift_iff) hB
  · exact denotes_bitwise x y (fun RBV R => Iff.rfl) rfl (Nat.testBit_and _ _) (Nat.and_lt_two_pow _ hy)
  · exact denotes_bitwise x y (fun RBV R => Iff.rfl) trivial (Nat.testBit_or _ _) (Nat.or_lt_two_pow hx hy)
  · exact denotes_bitwise x y (fun RBV R => Iff.rfl) trivial (Nat.testBit_xor _ _) (Nat.xor_lt_two_pow hx hy)
  · exact denotes_add x y
  · unfold bvEq
    rw [and_iff_right rfl]
    exact bvEqUnsigned_iff (le_refl 1) (le_refl 1)
  · exact bvNeq_iff rfl rfl
  · exact bvToInt_intToBv n

theorem denotes_rshift_iff : Denotes (bvRshift ⟨0, x⟩ I) (max (x.length - I) 1) (value x / 2 ^ I) ↔ I < x.length := by
  have hcall : ∀ R, bvRshift ⟨0, x⟩ I none R ↔
      I < x.length ∧ R.sign = 0 ∧ R.m.length = x.length - I ∧ value R.m = value x / 2 ^ I := by
    intro R
    unfold bvRshift Bound
    rw [and_iff_right rfl, rshift_iff, forall_prop_of_true rfl, sub_pos, Nat.cast_lt, and_assoc]
  constructor
  · intro h
    by_contra hge
    have hzero : value x / 2 ^ I = 0 :=
      Nat.div_eq_of_lt ((value_lt x).trans_le (Nat.pow_le_pow_right Nat.two_pos (Nat.not_lt.1 hge)))
    have hnew := (h.unbound ⟨0, [false]⟩).2 ⟨rfl, by rw [Nat.sub_eq_zero_of_le (Nat.not_lt.1 hge)]; rfl, hzero.symm⟩
    exact hge ((hcall _).1 hnew).1
  · intro hlt
    rw [max_eq_left (Nat.sub_pos_of_lt hlt)]
    refine ⟨(exactButRshift x [] I 0).rshift, ?_, ?_⟩
    · apply Nat.div_lt_of_lt_mul
      rw [← Nat.pow_add, Nat.add_sub_cancel' (Nat.le_of_lt hlt)]
      exact value_lt x
    · intro R
      rw [hcall, and_iff_right hlt]

theorem bv_meets_iff (n : ℤ) :
    (ExactButRshift x y I n ∧ Denotes (bvRshift ⟨0, x⟩ I) (max (x.length - I) 1) (value x / 2 ^ I) ↔ I < x.length) ∧
      ExactButRshift x y I n := by
  have hexact := exactButRshift x y I n
  refine ⟨?_, hexact⟩
  rw [and_iff_right hexact]
  exact denotes_rshift_iff x I

end

/-- A vector of one bit is shifted by one position: there is no result. -/
theorem bvRshift_new_zero : (¬ ∃ R, bvRshift ⟨0, [true]⟩ 1 none R) ∧ ¬ Denotes (bvRshift ⟨0, [true]⟩ 1) 1 0 := by
  have hnone : ¬ ∃ R, bvRshift ⟨0, [true]⟩ 1 none R := by
    rintro ⟨R, -, hsize, -⟩
    exact absurd (hsize rfl) (by decide)
  refine ⟨hnone, ?_⟩
  intro h
  exact hnone ⟨⟨0, [false]⟩, (h.unbound _).2 ⟨rfl, rfl, rfl⟩⟩

end Picat.BitVector
