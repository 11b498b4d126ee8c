import Mathlib.Analysis.SpecialFunctions.Log.Base
import Mathlib.Data.Int.Bitwise
import Picat.Lib.Digits

/-!
# Pseudo-Boolean encoding of integer variables

* `booleanize_meets_iff` : when the solutions of all lists of constraints are kept.
-/

namespace Picat.Mip
open BitLists List

/-- `'$lp_x'(ColNo,_,L,U,_)`. -/
structure LpX where
  colNo : ℕ
  l : ℕ
  u : ℕ

/-- `'$lp_c'(_,CoeCls,Const,ConstrType)`, where type 0 is an equation. -/
structure LpC (κ : Type) where
  coeCls : List (ℤ × κ)
  const : ℤ
  type : ℕ

/-- The column of a variable that is a Boolean, or the column `ColNo_P` of a bit. -/
inductive PBCol where
  | col (colNo : ℕ)
  | bit (colNo p : ℕ)

section
variable {κ : Type} (val : κ → ℤ)

def linear (coeCls : List (ℤ × κ)) : ℤ := (coeCls.map fun c => c.1 * val c.2).sum

def LpC.Holds (c : LpC κ) : Prop :=
  if c.type = 0 then linear val c.coeCls + c.const = 0 else 0 ≤ linear val c.coeCls + c.const

end

def bool01 (b : PBCol → Bool) (c : PBCol) : ℤ := (b c).toNat

/-! ## The encoding -/

/-- The logarithm is rounded to the nearest integer, so that of 1/2 to -1. -/
def roundLog (U : ℕ) : ℤ := ((Nat.log 2 ((2 * U + 1) ^ 2) : ℤ) - 1) / 2

/-- `PBCoeCls` and the constraints that are put in front of `TmpConstrsR`. -/
def mipBooleanizeVar (ColNo L U : ℕ) : List (ℤ × PBCol) × List (LpC PBCol) :=
  if L = 0 ∧ U = 1 then ([(1, .col ColNo)], [])
  else
    let K := roundLog U
    let PBCoeCls : List (ℤ × PBCol) := (List.range (K + 1).toNat).map fun P => (2 ^ P, .bit ColNo P)
    let ConstrValgeL := if L = 0 then [] else [⟨PBCoeCls, -(L : ℤ), 1⟩]
    let K1 := K + 1
    let ConstrValleU := if Int.land K1 (K1 - 1) = 0 then [] else [⟨PBCoeCls.map fun c => (-c.1, c.2), U, 1⟩]
    (PBCoeCls, ConstrValgeL ++ ConstrValleU)

abbrev VarsInfo := ℕ → Option (List (ℤ × PBCol))

/-- The map of the variables and `TmpConstrs`, for the variables that are not bound. -/
def mipBooleanizeVars : List LpX → VarsInfo → VarsInfo × List (LpC PBCol)
  | [], VarsInfoMap => (VarsInfoMap, [])
  | v :: Vars, VarsInfoMap =>
    let r := mipBooleanizeVar v.colNo v.l v.u
    let rest := mipBooleanizeVars Vars (Function.update VarsInfoMap v.colNo (some r.1))
    (rest.1, r.2 ++ rest.2)

section
variable (VarsInfoMap : VarsInfo)

def mipToPbCoecolsAux (Coe : ℤ) : List (ℤ × PBCol) → List (ℤ × PBCol) → List (ℤ × PBCol)
  | (PBCoe, PBColNo) :: ThisLogTerms, PBCoeClsR => (PBCoe * Coe, PBColNo) :: mipToPbCoecolsAux Coe ThisLogTerms PBCoeClsR
  | [], PBCoeClsR => PBCoeClsR

def mipToPbCoecols : List (ℤ × ℕ) → Option (List (ℤ × PBCol))
  | [] => some []
  | (Coe, ColNo) :: CoeCls => do
    let ThisLogTerms ← VarsInfoMap ColNo
    let PBCoeClsR ← mipToPbCoecols CoeCls
    return mipToPbCoecolsAux Coe ThisLogTerms PBCoeClsR

def mipToPbConstrs : List (LpC ℕ) → Option (List (LpC PBCol))
  | c :: Constrs => do
    let PBCoeCls ← mipToPbCoecols VarsInfoMap c.coeCls
    let PBConstrsR ← mipToPbConstrs Constrs
    return ⟨PBCoeCls, c.const, c.type⟩ :: PBConstrsR
  | [] => some []

end

/-! ## The logarithm -/

def bits (U : ℕ) : ℕ := (roundLog U + 1).toNat

theorem roundLog_eq_round (U : ℕ) : roundLog U = round (Real.logb 2 ((U : ℝ) + 1 / 2)) := by
  have hpos : (0 : ℝ) < 2 * U + 1 := by positivity
  have hlog : Real.logb 2 ((U : ℝ) + 1 / 2) + 1 / 2 = (Real.logb 2 (((2 * U + 1) ^ 2 : ℕ) : ℝ) - 1) / 2 := by
    push_cast
    rw [Real.logb_pow, show (U : ℝ) + 1 / 2 = (2 * U + 1) / 2 by ring, Real.logb_div hpos.ne' two_ne_zero,
      Real.logb_self_eq_one one_lt_two]
    push_cast
    ring
  have hfloor := @Real.floor_logb_natCast 2 (((2 * U + 1) ^ 2 : ℕ) : ℝ) (Nat.cast_nonneg _)
  rw [Int.log_natCast] at hfloor
  have hdiv := Int.floor_div_natCast (Real.logb 2 (((2 * U + 1) ^ 2 : ℕ) : ℝ) - 1) 2
  rw [Int.floor_sub_one] at hdiv
  rw [round_eq, hlog, roundLog, ← hfloor]
  exact hdiv.symm

theorem roundLog_add_one (U : ℕ) : roundLog U + 1 = bits U := by
  unfold bits
  rw [Int.toNat_of_nonneg]
  unfold roundLog
  omega

theorem bits_zero : bits 0 = 0 := by decide

theorem sq_lt (U : ℕ) : (2 * U + 1) ^ 2 < 2 * (2 ^ bits U) ^ 2 := by
  have hlt := Nat.lt_pow_succ_log_self one_lt_two ((2 * U + 1) ^ 2)
  have hle : Nat.log 2 ((2 * U + 1) ^ 2) ≤ 2 * bits U := by
    have := roundLog_add_one U
    unfold roundLog at this
    omega
  calc (2 * U + 1) ^ 2 < 2 ^ (Nat.log 2 ((2 * U + 1) ^ 2)).succ := hlt
    _ ≤ 2 ^ (2 * bits U + 1) := Nat.pow_le_pow_right Nat.two_pos (Nat.succ_le_succ hle)
    _ = 2 * (2 ^ bits U) ^ 2 := by ring

theorem lt_two_pow_bits (U : ℕ) : U < 2 ^ bits U := by
  by_contra hle
  have hsq := Nat.pow_le_pow_left (Nat.le_of_not_lt hle) 2
  have hlt := sq_lt U
  nlinarith

theorem eq_zero_of_full {U : ℕ} (h : U + 1 = 2 ^ bits U) : U = 0 := by
  have hlt := sq_lt U
  rw [← h] at hlt
  nlinarith

theorem land_roundLog_iff (U : ℕ) : Int.land (roundLog U + 1) (roundLog U + 1 - 1) = 0 ↔
    bits U = 0 ∨ (bits U).isPowerOfTwo := by
  rw [roundLog_add_one]
  cases hbits : bits U with
  | zero =>
    refine iff_of_true ?_ (.inl rfl)
    change ((Nat.ldiff 0 0 : ℕ) : ℤ) = 0
    unfold Nat.ldiff
    rw [Nat.bitwise_zero_left]
    rfl
  | succ k =>
    rw [or_iff_right k.succ_ne_zero, ← Nat.and_sub_one_eq_zero_iff_isPowerOfTwo k.succ_ne_zero, Nat.succ_sub_one]
    have hland : Int.land ((k + 1 : ℕ) : ℤ) ((k + 1 : ℕ) - 1) = ((k + 1) &&& k : ℕ) := by
      push_cast
      rw [add_sub_cancel_right]
      rfl
    rw [hland]
    exact Int.natCast_eq_zero

/-! ## One variable -/

section
variable {κ : Type} (val : κ → ℤ)

theorem linear_cons (c : ℤ × κ) (cs : List (ℤ × κ)) : linear val (c :: cs) = c.1 * val c.2 + linear val cs :=
  sum_cons

theorem linear_append (cs ds : List (ℤ × κ)) : linear val (cs ++ ds) = linear val cs + linear val ds := by
  unfold linear
  rw [List.map_append, sum_append]

theorem linear_neg (cs : List (ℤ × κ)) : linear val (cs.map fun c => (-c.1, c.2)) = -linear val cs := by
  induction cs with
  | nil => rfl
  | cons c cs ih =>
    rw [map_cons, linear_cons, linear_cons, ih]
    ring

end

theorem linear_bits (b : PBCol → Bool) (ColNo n : ℕ) :
    linear (bool01 b) ((List.range n).map fun P => (2 ^ P, .bit ColNo P)) =
      value ((List.range n).map fun P => b (.bit ColNo P)) := by
  induction n with
  | zero => rfl
  | succ n ih =>
    rw [range_succ, List.map_append, List.map_append, linear_append, ih, map_singleton, map_singleton,
      value_concat, length_map, length_range]
    unfold linear bool01
    simp

def maxValue (L U : ℕ) : ℕ :=
  if L = 0 ∧ U = 1 then 1 else if bits U = 0 ∨ (bits U).isPowerOfTwo then 2 ^ bits U - 1 else U

section
variable {ColNo L U : ℕ} {b : PBCol → Bool}

theorem mipBooleanizeVar_bool (h : L = 0 ∧ U = 1) : mipBooleanizeVar ColNo L U = ([(1, .col ColNo)], []) := if_pos h

section
variable (h : ¬ (L = 0 ∧ U = 1))
include h

theorem mipBooleanizeVar_bits : (mipBooleanizeVar ColNo L U).1 =
    (List.range (bits U)).map fun P => (2 ^ P, .bit ColNo P) := by
  unfold mipBooleanizeVar
  rw [if_neg h]
  rfl

theorem mipBooleanizeVar_constrs : (mipBooleanizeVar ColNo L U).2 =
    (if L = 0 then [] else [⟨(mipBooleanizeVar ColNo L U).1, -(L : ℤ), 1⟩]) ++
      if bits U = 0 ∨ (bits U).isPowerOfTwo then []
      else [⟨(mipBooleanizeVar ColNo L U).1.map fun c => (-c.1, c.2), U, 1⟩] := by
  rw [mipBooleanizeVar_bits h]
  unfold mipBooleanizeVar
  dsimp only
  rw [if_neg h, ← ite_congr (propext (land_roundLog_iff U)) (fun _ => rfl) fun _ => rfl]
  rfl

theorem holds_iff : (∀ c ∈ (mipBooleanizeVar ColNo L U).2, c.Holds (bool01 b)) ↔
    (L = 0 ∨ (L : ℤ) ≤ linear (bool01 b) (mipBooleanizeVar ColNo L U).1) ∧
      (bits U = 0 ∨ (bits U).isPowerOfTwo ∨ linear (bool01 b) (mipBooleanizeVar ColNo L U).1 ≤ U) := by
  rw [mipBooleanizeVar_constrs h, forall_mem_append]
  apply and_congr
  · split_ifs with hL
    · exact iff_of_true (fun c hc => absurd hc not_mem_nil) (.inl hL)
    · rw [forall_mem_singleton, or_iff_right hL]
      unfold LpC.Holds
      dsimp only
      rw [if_neg one_ne_zero, ← sub_eq_add_neg]
      exact sub_nonneg
  · rw [← or_assoc]
    split_ifs with hU
    · exact iff_of_true (fun c hc => absurd hc not_mem_nil) (.inl hU)
    · rw [forall_mem_singleton, or_iff_right hU]
      unfold LpC.Holds
      dsimp only
      rw [if_neg one_ne_zero, linear_neg, neg_add_eq_sub]
      exact sub_nonneg

theorem linear_mipBooleanizeVar : linear (bool01 b) (mipBooleanizeVar ColNo L U).1 =
    value ((List.range (bits U)).map fun P => b (.bit ColNo P)) := by
  rw [mipBooleanizeVar_bits h]
  exact linear_bits b ColNo (bits U)

end

theorem bounds_of_holds (h : ∀ c ∈ (mipBooleanizeVar ColNo L U).2, c.Holds (bool01 b)) :
    (L : ℤ) ≤ linear (bool01 b) (mipBooleanizeVar ColNo L U).1 ∧
      linear (bool01 b) (mipBooleanizeVar ColNo L U).1 ≤ maxValue L U := by
  unfold maxValue
  by_cases hbool : L = 0 ∧ U = 1
  · rw [if_pos hbool, mipBooleanizeVar_bool hbool, hbool.1]
    have hcol : linear (bool01 b) [(1, .col ColNo)] = (b (.col ColNo)).toNat := by
      unfold linear bool01
      simp
    rw [hcol]
    exact ⟨Int.natCast_nonneg _, Int.ofNat_le.2 (Bool.toNat_le _)⟩
  · have hvalue : linear (bool01 b) (mipBooleanizeVar ColNo L U).1 =
        value ((List.range (bits U)).map fun P => b (.bit ColNo P)) := linear_mipBooleanizeVar hbool
    have hlt := value_lt ((List.range (bits U)).map fun P => b (.bit ColNo P))
    rw [length_map, length_range] at hlt
    obtain ⟨hL, hU⟩ := (holds_iff hbool).1 h
    rw [if_neg hbool]
    refine ⟨by omega, ?_⟩
    split_ifs with hfull
    · rw [hvalue]
      exact Int.ofNat_le.2 (Nat.le_sub_one_of_lt hlt)
    · rw [← or_assoc] at hU
      exact hU.resolve_left hfull

def bitsOfValues (x : ℕ → ℤ) : PBCol → Bool
  | .col ColNo => x ColNo = 1
  | .bit ColNo P => (x ColNo).toNat.testBit P

theorem holds_bitsOfValues {x : ℕ → ℤ} (hL : (L : ℤ) ≤ x ColNo) (hU : x ColNo ≤ maxValue L U) :
    linear (bool01 (bitsOfValues x)) (mipBooleanizeVar ColNo L U).1 = x ColNo ∧
      ∀ c ∈ (mipBooleanizeVar ColNo L U).2, c.Holds (bool01 (bitsOfValues x)) := by
  unfold maxValue at hU
  by_cases hbool : L = 0 ∧ U = 1
  · rw [if_pos hbool] at hU
    rw [mipBooleanizeVar_bool hbool]
    refine ⟨?_, fun c hc => absurd hc not_mem_nil⟩
    have hx : x ColNo = 0 ∨ x ColNo = 1 := by omega
    unfold linear bool01 bitsOfValues
    rcases hx with hx | hx <;> simp [hx]
  · rw [if_neg hbool] at hU
    have hvalue : linear (bool01 (bitsOfValues x)) (mipBooleanizeVar ColNo L U).1 = x ColNo := by
      have hbits := lt_two_pow_bits U
      have hlt : (x ColNo).toNat < 2 ^ bits U := by
        split_ifs at hU <;> omega
      rw [linear_mipBooleanizeVar hbool]
      change ((value (bitsOf (bits U) (x ColNo).toNat) : ℕ) : ℤ) = x ColNo
      rw [value_bitsOf, Nat.mod_eq_of_lt hlt]
      omega
    refine ⟨hvalue, (holds_iff hbool).2 ?_⟩
    rw [hvalue, ← or_assoc]
    refine ⟨.inr hL, ?_⟩
    by_cases hfull : bits U = 0 ∨ (bits U).isPowerOfTwo
    · exact .inl hfull
    · rw [if_neg hfull] at hU
      exact .inr hU

def Encodes (L U : ℕ) : Prop := (L = 0 ∧ U = 1) ∨ U = 0 ∨ ¬ (bits U).isPowerOfTwo

theorem encodes_iff (L U : ℕ) : Encodes L U ↔ maxValue L U = U := by
  unfold Encodes maxValue
  by_cases hbool : L = 0 ∧ U = 1
  · rw [if_pos hbool]
    exact iff_of_true (.inl hbool) hbool.2.symm
  · rw [if_neg hbool, or_iff_right hbool]
    by_cases hU : U = 0
    · rw [hU, bits_zero]
      exact iff_of_true (.inl rfl) rfl
    · have hlt := lt_two_pow_bits U
      have hbits : bits U ≠ 0 := by
        intro h0
        rw [h0] at hlt
        omega
      rw [or_iff_right hU]
      by_cases hpow : (bits U).isPowerOfTwo
      · rw [if_pos (.inr hpow)]
        apply iff_of_false (not_not.2 hpow)
        intro hfull
        exact hU (eq_zero_of_full (by omega))
      · rw [if_neg (not_or.2 ⟨hbits, hpow⟩)]
        exact iff_of_true hpow rfl

theorem values_iff (ColNo L U : ℕ) (x : ℤ) : (∃ b, (∀ c ∈ (mipBooleanizeVar ColNo L U).2, c.Holds (bool01 b)) ∧
      linear (bool01 b) (mipBooleanizeVar ColNo L U).1 = x) ↔ L ≤ x ∧ x ≤ maxValue L U := by
  constructor
  · rintro ⟨b, h, rfl⟩
    exact bounds_of_holds h
  · intro ⟨hL, hU⟩
    obtain ⟨hvalue, h⟩ := holds_bitsOfValues (x := fun _ => x) hL hU
    exact ⟨_, h, hvalue⟩

theorem booleanizeVar_iff (ColNo : ℕ) (hdom : L ≤ U) :
    (∀ x : ℤ, (∃ b, (∀ c ∈ (mipBooleanizeVar ColNo L U).2, c.Holds (bool01 b)) ∧
      linear (bool01 b) (mipBooleanizeVar ColNo L U).1 = x) ↔ L ≤ x ∧ x ≤ U) ↔ Encodes L U := by
  simp only [values_iff]
  rw [encodes_iff]
  constructor
  · intro h
    have hle := ((h U).2 ⟨Int.ofNat_le.2 hdom, le_refl _⟩).2
    have hmax := (h (maxValue L U)).1 ⟨(Int.ofNat_le.2 hdom).trans hle, le_refl _⟩
    exact Int.ofNat.inj (hmax.2.antisymm hle)
  · intro heq x
    rw [heq]

end

/-! ## Lists of constraints -/

section
variable (Vars : List LpX) (Constrs : List (LpC ℕ)) (x : ℕ → ℤ)

/-- The values are in the domains and satisfy the constraints. -/
structure IsSolution : Prop where
  dom : ∀ v ∈ Vars, (v.l : ℤ) ≤ x v.colNo ∧ x v.colNo ≤ v.u
  constrs : ∀ c ∈ Constrs, c.Holds x

/-- The values are those of bits that satisfy the constraints on the bits and the translated ones. -/
structure IsPbSolution (PBConstrs : List (LpC PBCol)) (b : PBCol → Bool) : Prop where
  tmpConstrs : ∀ c ∈ (mipBooleanizeVars Vars fun _ => none).2, c.Holds (bool01 b)
  pbConstrs : ∀ c ∈ PBConstrs, c.Holds (bool01 b)
  values : ∀ v ∈ Vars, ∃ PBCoeCls, (mipBooleanizeVars Vars fun _ => none).1 v.colNo = some PBCoeCls ∧
    linear (bool01 b) PBCoeCls = x v.colNo

def HasPbSolution : Prop :=
  ∃ PBConstrs, mipToPbConstrs (mipBooleanizeVars Vars fun _ => none).1 Constrs = some PBConstrs ∧
    ∃ b, IsPbSolution Vars x PBConstrs b

def Over : Prop := ∀ c ∈ Constrs, ∀ t ∈ c.coeCls, t.2 ∈ Vars.map LpX.colNo

end

section
variable {Vars : List LpX} {Constrs : List (LpC ℕ)} {x : ℕ → ℤ} {VarsInfoMap : VarsInfo} {b : PBCol → Bool}

theorem mem_tmpConstrs {c : LpC PBCol} : c ∈ (mipBooleanizeVars Vars VarsInfoMap).2 ↔
    ∃ v ∈ Vars, c ∈ (mipBooleanizeVar v.colNo v.l v.u).2 := by
  induction Vars generalizing VarsInfoMap with
  | nil => exact iff_of_false not_mem_nil fun ⟨v, hv, _⟩ => absurd hv not_mem_nil
  | cons v Vars ih =>
    unfold mipBooleanizeVars
    dsimp only
    rw [mem_append, ih, exists_mem_cons_iff]

theorem varsInfo_of_notMem {n : ℕ} (h : n ∉ Vars.map LpX.colNo) :
    (mipBooleanizeVars Vars VarsInfoMap).1 n = VarsInfoMap n := by
  induction Vars generalizing VarsInfoMap with
  | nil => rfl
  | cons v Vars ih =>
    rw [map_cons, mem_cons, not_or] at h
    unfold mipBooleanizeVars
    dsimp only
    rw [ih h.2, Function.update_of_ne h.1]

theorem varsInfo_of_mem (hnodup : (Vars.map LpX.colNo).Nodup) {v : LpX} (h : v ∈ Vars) :
    (mipBooleanizeVars Vars VarsInfoMap).1 v.colNo = some (mipBooleanizeVar v.colNo v.l v.u).1 := by
  induction Vars generalizing VarsInfoMap with
  | nil => exact absurd h not_mem_nil
  | cons w Vars ih =>
    rw [map_cons, nodup_cons] at hnodup
    unfold mipBooleanizeVars
    dsimp only
    rcases mem_cons.1 h with rfl | h
    · rw [varsInfo_of_notMem hnodup.1, Function.update_self]
    · exact ih hnodup.2 h

theorem linear_mipToPbCoecolsAux (val : PBCol → ℤ) (Coe : ℤ) (ThisLogTerms PBCoeClsR : List (ℤ × PBCol)) :
    linear val (mipToPbCoecolsAux Coe ThisLogTerms PBCoeClsR) = Coe * linear val ThisLogTerms + linear val PBCoeClsR := by
  induction ThisLogTerms with
  | nil =>
    unfold mipToPbCoecolsAux
    rw [show linear val [] = 0 from rfl, mul_zero, zero_add]
  | cons t ThisLogTerms ih =>
    obtain ⟨PBCoe, PBColNo⟩ := t
    unfold mipToPbCoecolsAux
    rw [linear_cons, linear_cons, ih]
    ring

theorem exists_mipToPbCoecols {CoeCls : List (ℤ × ℕ)} (h : ∀ t ∈ CoeCls, ∃ PBCoeCls, VarsInfoMap t.2 = some PBCoeCls) :
    ∃ PBCoeCls, mipToPbCoecols VarsInfoMap CoeCls = some PBCoeCls ∧
      ∀ b, (∀ t ∈ CoeCls, ∀ cls, VarsInfoMap t.2 = some cls → linear (bool01 b) cls = x t.2) →
        linear (bool01 b) PBCoeCls = linear x CoeCls := by
  induction CoeCls with
  | nil => exact ⟨[], rfl, fun b _ => rfl⟩
  | cons t CoeCls ih =>
    obtain ⟨Coe, ColNo⟩ := t
    obtain ⟨ThisLogTerms, hterms⟩ := h (Coe, ColNo) mem_cons_self
    obtain ⟨PBCoeClsR, hrest, hsum⟩ := ih fun t ht => h t (mem_cons_of_mem _ ht)
    refine ⟨mipToPbCoecolsAux Coe ThisLogTerms PBCoeClsR, ?_, ?_⟩
    · unfold mipToPbCoecols
      rw [hrest]
      dsimp only at hterms
      rw [hterms]
      rfl
    · intro b hb
      rw [linear_mipToPbCoecolsAux, linear_cons, hsum b fun t ht => hb t (mem_cons_of_mem _ ht),
        hb (Coe, ColNo) mem_cons_self ThisLogTerms hterms]

theorem exists_mipToPbConstrs (h : ∀ c ∈ Constrs, ∀ t ∈ c.coeCls, ∃ PBCoeCls, VarsInfoMap t.2 = some PBCoeCls) :
    ∃ PBConstrs, mipToPbConstrs VarsInfoMap Constrs = some PBConstrs ∧
      ∀ b, (∀ c ∈ Constrs, ∀ t ∈ c.coeCls, ∀ cls, VarsInfoMap t.2 = some cls → linear (bool01 b) cls = x t.2) →
        ((∀ c ∈ PBConstrs, c.Holds (bool01 b)) ↔ ∀ c ∈ Constrs, c.Holds x) := by
  induction Constrs with
  | nil =>
    exact ⟨[], rfl, fun b _ => iff_of_true (fun c hc => absurd hc not_mem_nil) fun c hc => absurd hc not_mem_nil⟩
  | cons c Constrs ih =>
    obtain ⟨PBCoeCls, hcls, hsum⟩ := exists_mipToPbCoecols (x := x) (h c mem_cons_self)
    obtain ⟨PBConstrsR, hrest, hholds⟩ := ih fun c' hc' => h c' (mem_cons_of_mem c hc')
    refine ⟨⟨PBCoeCls, c.const, c.type⟩ :: PBConstrsR, ?_, ?_⟩
    · unfold mipToPbConstrs
      rw [hcls, hrest]
      rfl
    · intro b hb
      rw [forall_mem_cons, forall_mem_cons, hholds b fun c' hc' => hb c' (mem_cons_of_mem c hc')]
      apply and_congr_left'
      unfold LpC.Holds
      dsimp only
      rw [hsum b (hb c mem_cons_self)]

/-- The solutions that are found have the values that the bits of each variable can have. -/
theorem hasPbSolution_iff (hnodup : (Vars.map LpX.colNo).Nodup) (hover : Over Vars Constrs) :
    HasPbSolution Vars Constrs x ↔ (∀ v ∈ Vars, (v.l : ℤ) ≤ x v.colNo ∧ x v.colNo ≤ maxValue v.l v.u) ∧
      ∀ c ∈ Constrs, c.Holds x := by
  have hmap : ∀ c ∈ Constrs, ∀ t ∈ c.coeCls, ∃ v ∈ Vars, v.colNo = t.2 := fun c hc t ht => mem_map.1 (hover c hc t ht)
  have hentry : ∀ c ∈ Constrs, ∀ t ∈ c.coeCls,
      ∃ PBCoeCls, (mipBooleanizeVars Vars fun _ => none).1 t.2 = some PBCoeCls := by
    intro c hc t ht
    obtain ⟨v, hv, heq⟩ := hmap c hc t ht
    rw [← heq, varsInfo_of_mem hnodup hv]
    exact ⟨_, rfl⟩
  obtain ⟨PBConstrs, hPB, hholds⟩ := exists_mipToPbConstrs (x := x) hentry
  -- the bits of each variable have its value
  have hterms : ∀ b, (∀ v ∈ Vars, linear (bool01 b) (mipBooleanizeVar v.colNo v.l v.u).1 = x v.colNo) →
      ((∀ c ∈ PBConstrs, c.Holds (bool01 b)) ↔ ∀ c ∈ Constrs, c.Holds x) := by
    intro b hb
    apply hholds b
    intro c hc t ht cls hcls
    obtain ⟨v, hv, heq⟩ := hmap c hc t ht
    rw [← heq, varsInfo_of_mem hnodup hv] at hcls
    rw [← heq, ← Option.some.inj hcls]
    exact hb v hv
  constructor
  · intro hp
    obtain ⟨PBConstrs', hPB', b, h⟩ := hp
    rw [hPB] at hPB'
    have hvalue : ∀ v ∈ Vars, linear (bool01 b) (mipBooleanizeVar v.colNo v.l v.u).1 = x v.colNo := by
      intro v hv
      obtain ⟨cls, hcls, hval⟩ := h.values v hv
      rw [varsInfo_of_mem hnodup hv] at hcls
      rw [Option.some.inj hcls]
      exact hval
    refine ⟨fun v hv => ?_, (hterms b hvalue).1 ?_⟩
    · rw [← hvalue v hv]
      exact bounds_of_holds fun c hc => h.tmpConstrs c (mem_tmpConstrs.2 ⟨v, hv, hc⟩)
    · rw [Option.some.inj hPB']
      exact h.pbConstrs
  · intro ⟨hdom, hconstrs⟩
    have hbits := fun v (hv : v ∈ Vars) => holds_bitsOfValues (hdom v hv).1 (hdom v hv).2
    refine ⟨PBConstrs, hPB, bitsOfValues x, ?_, (hterms _ fun v hv => (hbits v hv).1).2 hconstrs, ?_⟩
    · intro c hc
      obtain ⟨v, hv, hc⟩ := mem_tmpConstrs.1 hc
      exact (hbits v hv).2 c hc
    · intro v hv
      exact ⟨_, varsInfo_of_mem hnodup hv, (hbits v hv).1⟩

/-- The encoding is right when the upper bound is 0, the domain is 0..1, or the number of bits is no power of 2. -/
theorem booleanize_meets_iff (Vars : List LpX) (hnodup : (Vars.map LpX.colNo).Nodup) (hdom : ∀ v ∈ Vars, v.l ≤ v.u) :
    ((∀ v ∈ Vars, ∀ x : ℤ, (∃ b, (∀ c ∈ (mipBooleanizeVar v.colNo v.l v.u).2, c.Holds (bool01 b)) ∧
        linear (bool01 b) (mipBooleanizeVar v.colNo v.l v.u).1 = x) ↔ v.l ≤ x ∧ x ≤ v.u) ∧
      ∀ Constrs, Over Vars Constrs → ∀ x, HasPbSolution Vars Constrs x ↔ IsSolution Vars Constrs x) ↔
        ∀ v ∈ Vars, Encodes v.l v.u := by
  constructor
  · intro h v hv
    exact (booleanizeVar_iff v.colNo (hdom v hv)).1 (h.1 v hv)
  · intro h
    refine ⟨fun v hv => (booleanizeVar_iff v.colNo (hdom v hv)).2 (h v hv), ?_⟩
    intro Constrs hover x
    rw [hasPbSolution_iff hnodup hover]
    have hsame : (∀ v ∈ Vars, (v.l : ℤ) ≤ x v.colNo ∧ x v.colNo ≤ maxValue v.l v.u) ↔
        ∀ v ∈ Vars, (v.l : ℤ) ≤ x v.colNo ∧ x v.colNo ≤ v.u := by
      apply forall₂_congr
      intro v hv
      rw [(encodes_iff v.l v.u).1 (h v hv)]
    rw [hsame]
    exact ⟨fun ⟨hd, hc⟩ => ⟨hd, hc⟩, fun hs => ⟨hs.dom, hs.constrs⟩⟩

end

theorem booleanize_meets_iff_five : HasPbSolution [⟨1, 0, 5⟩] [] = IsSolution [⟨1, 0, 5⟩] [] := by
  have hbits : bits 5 = 3 := by decide
  have hencodes : ∀ v ∈ [LpX.mk 1 0 5], Encodes v.l v.u := by
    intro v hv
    rw [mem_singleton.1 hv]
    apply Or.inr (Or.inr _)
    rw [hbits]
    decide
  funext x
  exact propext (((booleanize_meets_iff [⟨1, 0, 5⟩] (by decide) (by decide)).2 hencodes).2 []
    (fun c hc => absurd hc not_mem_nil) x)

/-- The domain 0..2 has two bits and no constraint. -/
theorem booleanize_three : ¬ ∀ x : ℤ, (∃ b, (∀ c ∈ (mipBooleanizeVar 1 0 2).2, c.Holds (bool01 b)) ∧
    linear (bool01 b) (mipBooleanizeVar 1 0 2).1 = x) ↔ ((0 : ℕ) : ℤ) ≤ x ∧ x ≤ ((2 : ℕ) : ℤ) := by
  intro h
  have hmax : maxValue 0 2 = 3 := by
    have hbits : bits 2 = 2 := by decide
    unfold maxValue
    rw [hbits]
    decide
  have h3 := (h 3).1 ((values_iff 1 0 2 3).2 ?_)
  · exact absurd h3.2 (by decide)
  · rw [hmax]
    decide

end Picat.Mip
