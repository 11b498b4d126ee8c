import Picat.Arith.Bitwise

/-!
# Greatest common divisors

Euclid's loop on words and on bigints; an operand of the bigint loop that has become one word is written as a bigint
again.

* `bpMathGcd_spec` : `gcd` on integers.
-/

namespace Picat
open Digits

/-! ## The two loops -/

/-- The loop of `bp_gcd_int_int`. -/
def gcdIntLoop (i1 i2 : Int) : Int :=
  if _h : i1 = 0 then i2 else gcdIntLoop (i2.tmod i1) i1
termination_by i1.natAbs
decreasing_by
  rw [Int.natAbs_tmod]
  exact Nat.mod_lt _ (by omega)

def bpGcdIntInt (i1 i2 : Int) : Int :=
  let i1 := if i1 < 0 then -i1 else i1
  let i2 := if i2 < 0 then -i2 else i2
  if i1 > i2 then gcdIntLoop i2 i1 else gcdIntLoop i1 i2

/-- `fuel` rounds of the loop of `bp_gcd_bigint_bigint`; `none` when they are not enough. -/
def gcdBigintLoop : Nat → Bigint → Bigint → Option Term
  | 0, _, _ => none
  | fuel + 1, i1, i2 =>
    let temp := bpModBigintBigint i2 i1
    if temp = .int 0 then some (bpAddBigintBigint i1 (bpIntToBigint 0))
    else gcdBigintLoop fuel temp.toBigint i1

def bpGcdBigintBigint (fuel : Nat) (i1 i2 : Bigint) : Option Term :=
  let i1 := if i1.sign < 0 then bpNegBigint i1 else i1
  let i2 := if i2.sign < 0 then bpNegBigint i2 else i2
  if bpCompareBigintBigint i1 i2 > 0 then gcdBigintLoop fuel i2 i1 else gcdBigintLoop fuel i1 i2

/-- `bp_math_gcd` on integers. -/
def bpMathGcd (fuel : Nat) : Term → Term → Option Term
  | .int op1, .int op2 => some (makeint (bpGcdIntInt op1 op2))
  | op1, op2 => bpGcdBigintBigint fuel op1.toBigint op2.toBigint

theorem gcdIntLoop_eq {i1 i2 : Int} (h1 : 0 ≤ i1) (h2 : 0 ≤ i2) : gcdIntLoop i1 i2 = Int.gcd i1 i2 := by
  induction i1, i2 using gcdIntLoop.induct with
  | case1 i2 =>
    rw [gcdIntLoop, dif_pos rfl, Int.gcd_zero_left]
    omega
  | case2 i1 i2 hne ih =>
    have hmod : i2.tmod i1 = i2 % i1 := Int.tmod_eq_emod_of_nonneg h2
    have hnn := Int.emod_nonneg i2 hne
    rw [gcdIntLoop, dif_neg hne, ih (by omega) h1, hmod, Int.gcd_comm i1 i2]
    congr 1
    exact Int.gcd_emod _ _

theorem bpGcdIntInt_eq (i1 i2 : Int) : bpGcdIntInt i1 i2 = Int.gcd i1 i2 := by
  have habs : ∀ i : Int, (if i < 0 then -i else i) = i.natAbs := by
    intro i
    split_ifs <;> omega
  have hgcd : ∀ a b : Nat, Int.gcd (a : Int) b = a.gcd b := fun a b => rfl
  simp only [bpGcdIntInt, habs]
  split_ifs
  · rw [gcdIntLoop_eq (by omega) (by omega), hgcd, Nat.gcd_comm]
    rfl
  · rw [gcdIntLoop_eq (by omega) (by omega), hgcd]
    rfl

/-! ## Bigints -/

theorem bpModBigintBigint_zero {op1 op2 : Bigint} {v : Int} (h1 : IsBigint op1 v) (h2 : IsBigint op2 0) (hv : 0 < v) :
    Denotes (bpModBigintBigint op1 op2) v := by
  have hnil : op2.ds = [] := h2.ubig.eq_nil_iff.2 rfl
  have hne : op1.ds ≠ [] := fun h => absurd (h1.ubig.eq_nil_iff.1 h) (by omega)
  have hpos := List.length_pos_of_ne_nil hne
  have hs1 : op1.sign = 1 := by rw [h1.sign_eq, if_neg (by omega)]
  have hs2 : op2.sign = 1 := by rw [h2.sign_eq, if_neg (by omega)]
  have hless : ¬ magLess op1.ds op2.ds := by
    rw [magLess_iff h1.ubig h2.ubig]
    omega
  have hr := bpDivUbigUbig_nil h1.ubig
  have hrne : (bpDivUbigUbig op1.ds []).2 ≠ [] := fun h => absurd (hr.eq_nil_iff.1 h) (by omega)
  have hrpos := List.length_pos_of_ne_nil hrne
  have hd := makeNumber_denotes hr (.inl rfl) (by omega)
  have hone : ¬ (1 : Int) = -1 := by decide
  rw [hnil] at hless
  simp only [bpModBigintBigint, hs1, hs2, hnil, if_true, if_neg hone, if_neg hless]
  rw [if_neg (by omega), if_neg (by omega)]
  rwa [show (1 : Int) * v.natAbs = v by omega] at hd

/-- Each round replaces the smaller operand by a remainder below it; the round after a zero operand puts it back in
front, where the remainder is zero. -/
theorem gcdBigintLoop_spec {i1 i2 : Bigint} {a b : Int} {fuel : Nat} (h1 : IsBigint i1 a) (h2 : IsBigint i2 b)
    (ha : 0 ≤ a) (hab : a ≤ b) (hb : 0 < b) (hfuel : a.natAbs + 2 ≤ fuel) :
    ∃ t, gcdBigintLoop fuel i1 i2 = some t ∧ Denotes t (Int.gcd a b) := by
  induction fuel generalizing i1 i2 a b with
  | zero => omega
  | succ fuel ih =>
    have hlast : ∀ {i : Bigint} {v : Int}, IsBigint i v → 0 < v →
        Denotes (bpAddBigintBigint i (bpIntToBigint 0)) v := by
      intro i v hi hv
      have := bpAddBigintBigint_denotes hi (isBigint_bpIntToBigint 0) (.inl (by omega))
      rwa [add_zero] at this
    rcases eq_or_ne a 0 with rfl | hne
    · -- the operands change places
      have hd := bpModBigintBigint_zero h2 h1 hb
      have hne : bpModBigintBigint i2 i1 ≠ .int 0 := by
        intro h
        rw [h] at hd
        exact absurd (hd.unique hd ▸ hd.2) (by change (0 : Int) ≠ b; omega)
      obtain ⟨fuel, rfl⟩ := Nat.exists_eq_add_of_le' (show 1 ≤ fuel by omega)
      have hzero : bpModBigintBigint i1 (bpModBigintBigint i2 i1).toBigint = .int 0 := by
        rw [bpModBigintBigint, if_pos]
        rw [h1.ubig.eq_nil_iff.2 rfl]
        rfl
      refine ⟨bpAddBigintBigint (bpModBigintBigint i2 i1).toBigint (bpIntToBigint 0), ?_, ?_⟩
      · rw [gcdBigintLoop, if_neg hne, gcdBigintLoop, if_pos hzero]
      · have hi := isBigint_toBigint hd.1
        rw [hd.2] at hi
        rw [Int.gcd_zero_left, Int.natAbs_of_nonneg hb.le]
        exact hlast hi hb
    · have hd := bpModBigintBigint_denotes h2 h1 hne
      rw [Int.fmod_eq_emod_of_nonneg b ha] at hd
      have hnn := Int.emod_nonneg b hne
      have hlt := Int.emod_lt_of_pos b (show 0 < a by omega)
      by_cases h0 : b % a = 0
      · rw [h0] at hd
        refine ⟨bpAddBigintBigint i1 (bpIntToBigint 0), ?_, ?_⟩
        · rw [gcdBigintLoop, if_pos (hd.unique denotes_zero)]
        · rw [Int.gcd_eq_left_iff_dvd ha |>.2 (Int.dvd_of_emod_eq_zero h0)]
          exact hlast h1 (by omega)
      · have hne0 : bpModBigintBigint i2 i1 ≠ .int 0 := by
          intro h
          rw [h] at hd
          exact h0 hd.2.symm
        have hi := isBigint_toBigint hd.1
        rw [hd.2] at hi
        obtain ⟨t, ht, hdt⟩ := ih hi h1 hnn (by omega) (by omega) (by omega)
        refine ⟨t, ?_, ?_⟩
        · rw [gcdBigintLoop, if_neg hne0]
          exact ht
        · rwa [Int.gcd_emod, Int.gcd_comm] at hdt

theorem bpGcdBigintBigint_spec {op1 op2 : Bigint} {v w : Int} {fuel : Nat} (h1 : IsBigint op1 v) (h2 : IsBigint op2 w)
    (hne : v ≠ 0 ∨ w ≠ 0) (hfuel : v.natAbs + w.natAbs + 2 ≤ fuel) :
    ∃ t, bpGcdBigintBigint fuel op1 op2 = some t ∧ Denotes t (Int.gcd v w) := by
  have habs : ∀ {i : Bigint} {a : Int}, IsBigint i a → IsBigint (if i.sign < 0 then bpNegBigint i else i) a.natAbs := by
    intro i a hi
    rw [hi.sign_eq]
    by_cases ha : a < 0
    · rw [if_pos ha, if_pos (by decide), show ((a.natAbs : Nat) : Int) = -a by omega]
      exact isBigint_bpNegBigint hi
    · rw [if_neg ha, if_neg (by decide), show ((a.natAbs : Nat) : Int) = a by omega]
      exact hi
  have hcmp := (habs h1).compare (habs h2)
  unfold bpGcdBigintBigint
  simp only [hcmp, gt_iff_lt, Int.sign_pos_iff]
  by_cases h : (0 : Int) < v.natAbs - w.natAbs
  · rw [if_pos h]
    obtain ⟨t, ht, hd⟩ := gcdBigintLoop_spec (habs h2) (habs h1) (by omega) (by omega) (by omega)
      (show _ ≤ fuel by omega)
    refine ⟨t, ht, ?_⟩
    rw [Int.gcd_comm]
    exact hd
  · rw [if_neg h]
    obtain ⟨t, ht, hd⟩ := gcdBigintLoop_spec (habs h1) (habs h2) (by omega) (by omega) (by omega)
      (show _ ≤ fuel by omega)
    exact ⟨t, ht, hd⟩

/-- `gcd` ends with the greatest common divisor in canonical representation, zero for two zeros only; and on words
the bigint loop, which never starts on two zeros, gives the same term. -/
theorem bpMathGcd_spec (x y : Number) :
    ∃ t, (∃ rounds, ∀ fuel ≥ rounds, bpMathGcd fuel x.term y.term = some t) ∧ Denotes t (Int.gcd x.val y.val) ∧
      (Int.gcd x.val y.val = 0 ↔ x.val = 0 ∧ y.val = 0) ∧
      (x.val ≠ 0 ∨ y.val ≠ 0 → ∃ rounds, ∀ fuel ≥ rounds,
        bpGcdBigintBigint fuel x.term.toBigint y.term.toBigint = some t) := by
  obtain ⟨x, hx⟩ := x
  obtain ⟨y, hy⟩ := y
  change ∃ t, _ ∧ Denotes t (Int.gcd x.val y.val) ∧ (Int.gcd x.val y.val = 0 ↔ x.val = 0 ∧ y.val = 0) ∧
    (x.val ≠ 0 ∨ y.val ≠ 0 → _)
  have hbig : x.val ≠ 0 ∨ y.val ≠ 0 → ∀ fuel ≥ x.val.natAbs + y.val.natAbs + 2,
      ∃ t, bpGcdBigintBigint fuel x.toBigint y.toBigint = some t ∧ Denotes t (Int.gcd x.val y.val) :=
    fun hne fuel hf => bpGcdBigintBigint_spec (isBigint_toBigint hx) (isBigint_toBigint hy) hne hf
  have hrun : ∀ t, Denotes t (Int.gcd x.val y.val) → (x.val ≠ 0 ∨ y.val ≠ 0) →
      ∀ fuel ≥ x.val.natAbs + y.val.natAbs + 2, bpGcdBigintBigint fuel x.toBigint y.toBigint = some t := by
    intro t ht hne fuel hf
    obtain ⟨u, hu, hd⟩ := hbig hne fuel hf
    rw [hu, hd.unique ht]
  by_cases hw : ∃ a b, x = .int a ∧ y = .int b
  · obtain ⟨a, b, rfl, rfl⟩ := hw
    have hd : Denotes (makeint (bpGcdIntInt a b)) (Int.gcd a b) := by
      rw [bpGcdIntInt_eq]
      refine denotes_makeint (in1W_iff.2 ?_)
      have ha := in1W_iff.1 hx
      have hb := in1W_iff.1 hy
      rcases eq_or_ne a 0 with rfl | hne
      · rw [Int.gcd_zero_left]
        omega
      · have := Nat.gcd_le_left b.natAbs (show 0 < a.natAbs by omega)
        change a.natAbs.gcd b.natAbs < 2 ^ 56
        omega
    exact ⟨_, ⟨0, fun fuel _ => rfl⟩, hd, Int.gcd_eq_zero_iff, fun hne => ⟨_, hrun _ hd hne⟩⟩
  · have hne : x.val ≠ 0 ∨ y.val ≠ 0 := by
      rcases x with a | a
      · rcases y with b | b
        · exact absurd ⟨a, b, rfl, rfl⟩ hw
        · exact .inr (ne_zero_of_canon hy)
      · exact .inl (ne_zero_of_canon hx)
    have heq : ∀ fuel, bpMathGcd fuel x y = bpGcdBigintBigint fuel x.toBigint y.toBigint := by
      intro fuel
      rcases x with a | a
      · rcases y with b | b
        · exact absurd ⟨a, b, rfl, rfl⟩ hw
        · rfl
      · rfl
    obtain ⟨t, -, hd⟩ := hbig hne _ le_rfl
    refine ⟨t, ⟨x.val.natAbs + y.val.natAbs + 2, ?_⟩, hd, Int.gcd_eq_zero_iff, fun hne => ⟨_, hrun t hd hne⟩⟩
    simp only [heq]
    exact hrun t hd hne

end Picat
