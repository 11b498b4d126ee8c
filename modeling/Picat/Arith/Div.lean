import Picat.Arith.AddMul
import Picat.Lib.IntDivision

/-!
# Division

`div` and `mod` round down, `//` and `rem` towards zero. The four operators share two digit-list functions,
`bp_div_bigint_bigint` and `bp_mod_bigint_bigint`, which round down.

* `ModShortcutWrong` : where the native-long shortcut of `bp_math_mod` gives the remainder the sign of the
  dividend; everywhere else `div` and `mod` are the floor division (`bpMath_div_mod_iff`).
-/

namespace Picat
open Digits IntDivision List

/-! ## Division of digit lists -/

/-- The test `xsize < ysize || (xsize == ysize && bp_compare_mag_mag(xsize, x, y) < 0)`. -/
def magLess (x y : List Nat) : Prop :=
  x.length < y.length ∨ (x.length = y.length ∧ bpCompareMagMag x.length x y < 0)

instance (x y : List Nat) : Decidable (magLess x y) := inferInstanceAs (Decidable (_ ∨ _))

def bpDivBigintBigint (op1 op2 : Bigint) : Term :=
  if op1.ds.length = 0 then .int 0
  else
    let qsign : Int := if op1.sign = op2.sign then 1 else -1
    let x := if qsign = -1 then bpDecUbig op1.ds else op1.ds
    if magLess x op2.ds then (if qsign = 1 then .int 0 else .int (-1))
    else
      let q := (bpDivUbigUbig x op2.ds).1
      let q := if qsign = -1 then bpIncUbig q else q
      makeNumber qsign q

def bpModBigintBigint (op1 op2 : Bigint) : Term :=
  if op1.ds.length = 0 then .int 0
  else
    let qsign : Int := if op1.sign = op2.sign then 1 else -1
    let x := if qsign = -1 then bpDecUbig op1.ds else op1.ds
    let r := if magLess x op2.ds then x else (bpDivUbigUbig x op2.ds).2
    let r := if qsign = -1 then bpDecUbig (bpSubUbigUbig op2.ds r) else r
    if r.length = 0 then .int 0 else makeNumber op2.sign r

section
variable {x y : List Nat} {a b : Nat} (hx : IsUbig x a) (hy : IsUbig y b)
include hx hy

theorem magLess_iff : magLess x y ↔ a < b := by
  unfold magLess
  constructor
  · rintro (h | ⟨hl, hc⟩)
    · by_contra hn
      have := hy.length_le hx (by omega)
      omega
    · rw [bpCompareMagMag_spec hx.valid hy.valid hl, hx.val_eq, hy.val_eq] at hc
      have := Int.sign_neg_iff.1 hc
      omega
  · intro h
    rcases Nat.lt_or_eq_of_le (hx.length_le hy (le_of_lt h)) with hl | hl
    · exact .inl hl
    · refine .inr ⟨hl, ?_⟩
      rw [bpCompareMagMag_spec hx.valid hy.valid hl, hx.val_eq, hy.val_eq]
      exact Int.sign_neg_iff.2 (by omega)

theorem isUbig_quotient (hb : b ≠ 0) (h : ¬ magLess x y) : IsUbig (bpDivUbigUbig x y).1 (a / b) :=
  (bpDivUbigUbig_spec hx hy hb (by rw [magLess_iff hx hy] at h; omega)).1

theorem isUbig_remainder (hb : b ≠ 0) : IsUbig (if magLess x y then x else (bpDivUbigUbig x y).2) (a % b) := by
  split_ifs with h
  · rw [Nat.mod_eq_of_lt ((magLess_iff hx hy).1 h)]
    exact hx
  · rw [magLess_iff hx hy] at h
    exact (bpDivUbigUbig_spec hx hy hb (by omega)).2

end

theorem IsUbig.dec {x : List Nat} {a : Nat} (hx : IsUbig x a) (ha : a ≠ 0) : IsUbig (bpDecUbig x) (a - 1) := by
  have h := bpDecUbig_spec hx.valid (by rw [hx.val_eq]; exact ha)
  rwa [hx.val_eq] at h

section
variable {op1 op2 : Bigint} {v w : Int}

section
variable (h1 : IsBigint op1 v) (h2 : IsBigint op2 w)
include h1 h2

theorem floorDivMod_of_signs (hv : v ≠ 0) (hw : w ≠ 0) :
    (op1.sign = op2.sign → FloorDivMod v w ((v.natAbs / w.natAbs : Nat) : Int)
        (op2.sign * ((v.natAbs % w.natAbs : Nat) : Int))) ∧
      (op1.sign ≠ op2.sign → FloorDivMod v w (-1 * (((v.natAbs - 1) / w.natAbs + 1 : Nat) : Int))
        (op2.sign * ((w.natAbs - (v.natAbs - 1) % w.natAbs - 1 : Nat) : Int))) := by
  have hs1 := IsBigint.sign_cases op1
  have hs2 := IsBigint.sign_cases op2
  have hv' := h1.val_eq
  have hw' := h2.val_eq
  constructor
  · intro hs
    have h := FloorDivMod.of_same (a := v.natAbs) (b := w.natAbs) hs2 (by omega)
    rwa [hw', ← hs, hv', hs] at h
  · intro hs
    have h := FloorDivMod.of_opposite (a := v.natAbs) (b := w.natAbs) hs2 (by omega) (by omega)
    rwa [hw', show -op2.sign = op1.sign by omega, hv'] at h

theorem bpDivBigintBigint_denotes (hw : w ≠ 0) : Denotes (bpDivBigintBigint op1 op2) (v.fdiv w) := by
  have hfl := floorDivMod_fdiv v hw
  unfold bpDivBigintBigint
  by_cases hv : v = 0
  · have hnil := h1.ubig.eq_nil_iff.2 (by rw [hv]; rfl)
    rw [hnil, hv, Int.zero_fdiv]
    exact denotes_zero
  · have hne : ¬ op1.ds.length = 0 := fun h => by
      have := h1.ubig.eq_nil_iff.1 (length_eq_zero_iff.1 h)
      omega
    obtain ⟨hsame, hopp⟩ := floorDivMod_of_signs h1 h2 hv hw
    rw [if_neg hne]
    by_cases hs : op1.sign = op2.sign
    · rw [(hfl.unique (hsame hs)).1]
      simp only [if_pos hs, show ¬ (1 : Int) = -1 by omega, if_false]
      split_ifs with hlt
      · rw [magLess_iff h1.ubig h2.ubig] at hlt
        rw [Nat.div_eq_of_lt hlt]
        exact denotes_zero
      · have hz := makeNumber_denotes (isUbig_quotient h1.ubig h2.ubig (by omega) hlt) (.inl rfl) (by
          rw [magLess_iff h1.ubig h2.ubig] at hlt
          exact Nat.ne_of_gt (Nat.div_pos (by omega) (by omega)))
        rwa [one_mul] at hz
    · have hdec := h1.ubig.dec (by omega)
      rw [(hfl.unique (hopp hs)).1]
      simp only [if_neg hs, if_true, show ¬ (-1 : Int) = 1 by omega, if_false]
      split_ifs with hlt
      · rw [magLess_iff hdec h2.ubig] at hlt
        rw [Nat.div_eq_of_lt hlt]
        exact denotes_makeint (v := -1) (by decide)
      · exact makeNumber_denotes (bpIncUbig_spec (isUbig_quotient hdec h2.ubig (by omega) hlt)) (.inr rfl)
          (Nat.succ_ne_zero _)

theorem bpModBigintBigint_denotes (hw : w ≠ 0) : Denotes (bpModBigintBigint op1 op2) (v.fmod w) := by
  have hfl := floorDivMod_fdiv v hw
  unfold bpModBigintBigint
  by_cases hv : v = 0
  · have hnil := h1.ubig.eq_nil_iff.2 (by rw [hv]; rfl)
    rw [hnil, hv, Int.zero_fmod]
    exact denotes_zero
  · have hne : ¬ op1.ds.length = 0 := fun h => by
      have := h1.ubig.eq_nil_iff.1 (length_eq_zero_iff.1 h)
      omega
    obtain ⟨hsame, hopp⟩ := floorDivMod_of_signs h1 h2 hv hw
    have hend : ∀ {z : List Nat} {m : Nat}, IsUbig z m →
        Denotes (if z.length = 0 then .int 0 else makeNumber op2.sign z) (op2.sign * m) := by
      intro z m hz
      split_ifs with h
      · rw [hz.eq_nil_iff.1 (length_eq_zero_iff.1 h), Int.natCast_zero, mul_zero]
        exact denotes_zero
      · exact makeNumber_denotes hz (IsBigint.sign_cases op2) (fun h0 => h (length_eq_zero_iff.2 (hz.eq_nil_iff.2 h0)))
    rw [if_neg hne]
    by_cases hs : op1.sign = op2.sign
    · rw [(hfl.unique (hsame hs)).2]
      simp only [if_pos hs, show ¬ (1 : Int) = -1 by omega, if_false]
      exact hend (isUbig_remainder h1.ubig h2.ubig (by omega))
    · have hr := isUbig_remainder (h1.ubig.dec (by omega)) h2.ubig (by omega)
      have hlt := Nat.mod_lt (v.natAbs - 1) (show 0 < w.natAbs by omega)
      rw [(hfl.unique (hopp hs)).2]
      simp only [if_neg hs, if_true]
      exact hend ((bpSubUbigUbig_spec h2.ubig hr (le_of_lt hlt)).dec (by omega))

end

end

/-! ## Helpers of the operators -/

def bpAbsBigint (op : Bigint) : Bigint := if op.sign > 0 then op else bpMakeBigintFromUbig 1 op.ds

def bpNegBigint (op : Bigint) : Bigint := bpMakeBigintFromUbig (-op.sign) op.ds

/-- `MAKEINT(-INTVAL(op))` for a word, `bp_neg_bigint(op)` for a bigint. -/
def negTerm : Term → Term
  | .int v => makeint (-v)
  | .bigint op => .bigint (bpNegBigint op)

theorem isBigint_bpAbsBigint {op : Bigint} {v : Int} (h : IsBigint op v) : IsBigint (bpAbsBigint op) v.natAbs := by
  have hval := h.val_eq
  have hs := IsBigint.sign_cases op
  unfold bpAbsBigint
  split_ifs with hp
  · obtain hs1 : op.sign = 1 := by omega
    rw [hs1, one_mul] at hval
    rwa [hval]
  · have := isBigint_makeBigintFromUbig h.ubig (.inl rfl) (.inr rfl)
    rwa [one_mul] at this

theorem isBigint_bpNegBigint {op : Bigint} {v : Int} (h : IsBigint op v) : IsBigint (bpNegBigint op) (-v) := by
  have hs := IsBigint.sign_cases op
  by_cases hv : v = 0
  · -- without digits there is no sign
    have hnil := h.ubig.eq_nil_iff.2 (by rw [hv]; rfl)
    have hneg : bpNegBigint op = ⟨0, []⟩ := by
      rw [bpNegBigint, hnil, bpMakeBigintFromUbig]
      simp
    rw [hneg, hv]
    exact isBigint_zero
  · have hb := isBigint_makeBigintFromUbig h.ubig (show -op.sign = 1 ∨ -op.sign = -1 by omega) (.inl (by omega))
    rwa [neg_mul, h.val_eq] at hb

theorem negTerm_denotes {t : Term} {v : Int} (h : Denotes t v) : Denotes (negTerm t) (-v) := by
  obtain ⟨hc, rfl⟩ := h
  cases t with
  | int a =>
    apply denotes_makeint
    rw [in1W_iff, Int.natAbs_neg]
    exact in1W_iff.1 hc
  | bigint b =>
    apply denotes_bigint (isBigint_bpNegBigint (isBigint_of_canon hc))
    have := not_in1W_of_canon hc
    rwa [in1W_iff, Int.natAbs_neg, ← in1W_iff]

def bpUbigToInt : List Nat → Int
  | [] => 0
  | d :: ds => bplong (bpUbigToInt ds * bpBigintBase + d)

/-- `bp_bigint_to_native_long`: the value from `2^56` up to, not including, `2^63`, and `0` for the rest. -/
def bpBigintToNativeLong (op : Bigint) : Int :=
  if op.sign ≠ 1 ∨ op.ds.length ≠ 3 then 0
  else if op.ds.getD 2 0 ≥ 128 then 0
  else bpUbigToInt op.ds

theorem bpUbigToInt_three {d0 d1 d2 : Nat} (h0 : d0 < 268435456) (h1 : d1 < 268435456) (h2 : d2 < 128) :
    bpUbigToInt [d0, d1, d2] = (d2 * 268435456 + d1 : Int) * 268435456 + d0 := by
  have hb : (bpBigintBase : Int) = 268435456 := by norm_num [bpBigintBase]
  rw [bpUbigToInt, bpUbigToInt, bpUbigToInt, bpUbigToInt, hb]
  rw [bplong_eq (x := 0 * 268435456 + (d2 : Int)) (by omega) (by omega), zero_mul, zero_add,
    bplong_eq (x := (d2 : Int) * 268435456 + d1) (by omega) (by omega),
    bplong_eq (by omega) (by omega)]

theorem bpBigintToNativeLong_eq {op : Bigint} (h : (Term.bigint op).Canon) :
    bpBigintToNativeLong op = if 0 ≤ (Term.bigint op).val ∧ (Term.bigint op).val < 2 ^ 63 then
      (Term.bigint op).val else 0 := by
  have hb := isBigint_of_canon h
  have hval := hb.val_eq
  have hs := IsBigint.sign_cases op
  set v := (Term.bigint op).val
  unfold bpBigintToNativeLong
  by_cases hs1 : op.sign = 1
  · rw [hs1, one_mul] at hval
    by_cases hl : op.ds.length = 3
    · obtain ⟨d0, d1, d2, hds⟩ := length_eq_three.1 hl
      have hd := hb.ubig.valid
      have hv := hb.ubig.val_eq
      have hbase : bpBigintBase = 268435456 := rfl
      simp only [hds, ubigVal, Nat.ofDigits_cons, Nat.ofDigits_nil, valid_cons, hbase] at hd hv
      obtain ⟨hd0, hd1, hd2, _⟩ := hd
      rw [if_neg (by omega), hds]
      simp only [getD_cons_succ, getD_cons_zero]
      split_ifs with h128 hr hr
      · omega
      · rfl
      · rw [bpUbigToInt_three hd0 hd1 (by omega)]
        omega
      · omega
    · have hlen := h.2.1
      have hpow := hb.ubig.pow_le (fun h0 => by
        have := hb.ubig.eq_nil_iff.2 h0
        simp [this] at hlen)
      have hle : bpBigintBase ^ 3 ≤ bpBigintBase ^ (op.ds.length - 1) := Nat.pow_le_pow_right (by decide) (by omega)
      have h63 : 2 ^ 63 ≤ bpBigintBase ^ 3 := by norm_num [bpBigintBase]
      rw [if_pos (.inr hl), if_neg]
      omega
  · rw [if_pos (.inl hs1), if_neg]
    intro hp
    obtain ⟨h0, _⟩ := hp
    have hne := ne_zero_of_canon h
    rw [show op.sign = -1 by omega] at hval
    omega

/-- `f = (double)op1/(double)op2; m = (BPLONG)f; if (f < m) m--;` The operands are below `2^28`, so they
are exact and the quotient is a normal number. -/
def floorDouble (op1 op2 : Int) : Int :=
  let f := Rounding.roundBinary 53 ((op1 : Rat) / op2)
  let m := Rounding.trunc f
  if f < m then m - 1 else m

theorem floorDouble_eq {op1 op2 : Int} (h1 : bpIn28BIntRange op1) (h2 : op2 ≠ 0) :
    floorDouble op1 op2 = op1.fdiv op2 := by
  have hround : ⌊Rounding.roundBinary 53 ((op1 : ℚ) / op2)⌋ = ⌊(op1 : ℚ) / op2⌋ := by
    unfold bpIn28BIntRange at h1
    have h0 : (op2 : ℚ) ≠ 0 := by exact_mod_cast h2
    rcases lt_or_gt_of_ne h2 with h | h
    · refine Rounding.floor_roundBinary (a := -op1) (c := -op2) (by omega) ?_ ?_
      · push_cast
        rw [mul_neg, div_mul_cancel₀ _ h0]
      · rw [abs_neg, abs_lt]
        constructor <;> omega
    · apply Rounding.floor_roundBinary (a := op1) (c := op2) h (div_mul_cancel₀ _ h0)
      rw [abs_lt]
      constructor <;> omega
  have hfd := floorDivMod_fdiv op1 h2
  simp only [floorDouble]
  rw [Rounding.floor_of_trunc, hround, Int.floor_eq_iff]
  have heq : (op1 : ℚ) = op1.fdiv op2 * op2 + op1.fmod op2 := by exact_mod_cast hfd.eq
  have h0 : (op2 : ℚ) ≠ 0 := by exact_mod_cast h2
  have hq : (op1 : ℚ) / op2 = op1.fdiv op2 + op1.fmod op2 / op2 := by
    rw [eq_comm, heq]
    field_simp
  rw [hq]
  rcases hfd.bounds with ⟨hm0, hm1⟩ | ⟨hm0, hm1⟩
  · have hy : (0 : ℚ) < op2 := by exact_mod_cast (show 0 < op2 by omega)
    have h3 : (0 : ℚ) ≤ op1.fmod op2 / op2 := div_nonneg (by exact_mod_cast hm0) (le_of_lt hy)
    have h4 : (op1.fmod op2 : ℚ) / op2 < 1 := (div_lt_one hy).2 (by exact_mod_cast hm1)
    constructor <;> linarith
  · have hy : (op2 : ℚ) < 0 := by exact_mod_cast (show op2 < 0 by omega)
    have h3 : (0 : ℚ) ≤ op1.fmod op2 / op2 := div_nonneg_of_nonpos (by exact_mod_cast hm1) (le_of_lt hy)
    have h4 : (op1.fmod op2 : ℚ) / op2 < 1 := (div_lt_one_of_neg hy).2 (by exact_mod_cast hm0)
    constructor <;> linarith

/-! ## The operators -/

/-- `bp_math_idiv`, the operator `//`. -/
def bpMathIdiv : Term → Term → Except ArithError Term
  | .int op1, .int op2 =>
    if op2 = 0 then .error .zeroDivisor else .ok (makeint (op1.tdiv op2))
  | .int _, .bigint _ => .ok (.int 0)
  | .bigint op1, .int op2 =>
    if op2 = 0 then .error .zeroDivisor
    else
      let sign := if op2 < 0 then -op1.sign else op1.sign
      let op2 := if op2 < 0 then -op2 else op2
      let r := bpDivBigintBigint (bpAbsBigint op1) (bpIntToBigint op2)
      .ok (if sign = 1 then r else negTerm r)
  | .bigint op1, .bigint op2 =>
    let r := bpDivBigintBigint (bpAbsBigint op1) (bpAbsBigint op2)
    .ok (if op1.sign * op2.sign = 1 then r else negTerm r)

/-- `bp_math_idiv_div`, the operator `div`. -/
def bpMathIdivDiv : Term → Term → Except ArithError Term
  | .int op1, .int op2 =>
    if op2 = 0 then .error .zeroDivisor
    else if op1 > 0 ∧ op2 > 0 then .ok (makeint (op1.tdiv op2))
    else if bpIn28BIntRange op1 ∧ bpIn28BIntRange op2 then .ok (makeint (floorDouble op1 op2))
    else .ok (bpDivBigintBigint (bpIntToBigint op1) (bpIntToBigint op2))
  | .int op1, .bigint op2 => .ok (bpDivBigintBigint (bpIntToBigint op1) op2)
  | .bigint op1, .int op2 =>
    if op2 = 0 then .error .zeroDivisor else .ok (bpDivBigintBigint op1 (bpIntToBigint op2))
  | .bigint op1, .bigint op2 => .ok (bpDivBigintBigint op1 op2)

def bpMathMod : Term → Term → Except ArithError Term
  | .int op1, .int op2 =>
    if op2 = 0 then .error .zeroDivisor
    else if op1 > 0 ∧ op2 > 0 then .ok (makeint (op1.tmod op2))
    else if bpIn28BIntRange op1 ∧ bpIn28BIntRange op2 then .ok (makeint (op1 - floorDouble op1 op2 * op2))
    else .ok (bpModBigintBigint (bpIntToBigint op1) (bpIntToBigint op2))
  | .int op1, .bigint op2 => .ok (bpModBigintBigint (bpIntToBigint op1) op2)
  | .bigint op1, .int op2 =>
    if op2 = 0 then .error .zeroDivisor
    else
      let i := bpBigintToNativeLong op1
      if i ≠ 0 then .ok (makeint (i.tmod op2))
      else .ok (bpModBigintBigint op1 (bpIntToBigint op2))
  | .bigint op1, .bigint op2 => .ok (bpModBigintBigint op1 op2)

def bpMathRem : Term → Term → Except ArithError Term
  | .int op1, .int op2 =>
    if op2 = 0 then .error .zeroDivisor else .ok (makeint (op1.tmod op2))
  | .int op1, .bigint op2 =>
    let r := bpModBigintBigint (bpIntToBigint (if op1 < 0 then -op1 else op1)) (bpAbsBigint op2)
    .ok (if op1 < 0 then negTerm r else r)
  | .bigint op1, .int op2 =>
    if op2 = 0 then .error .zeroDivisor
    else
      let op2 := if op2 < 0 then -op2 else op2
      let r := bpModBigintBigint (if op1.sign < 0 then bpNegBigint op1 else op1) (bpIntToBigint op2)
      .ok (if op1.sign = -1 then negTerm r else r)
  | .bigint op1, .bigint op2 =>
    let r := bpModBigintBigint (bpAbsBigint op1) (bpAbsBigint op2)
    .ok (if op1.sign = -1 then negTerm r else r)

/-- The dividends and divisors for which `bp_math_mod` takes the C remainder of a bigint that fits a long,
and that remainder has the wrong sign. -/
def ModShortcutWrong (x y : Int) : Prop :=
  2 ^ 56 ≤ x ∧ x < 2 ^ 63 ∧ bpMinint1W ≤ y ∧ y < 0 ∧ ¬ y ∣ x

/-! ## Rounding down -/

theorem in1W_of_natAbs_le {v w : Int} (h : v.natAbs ≤ w.natAbs) (hw : bpIn1WIntRange w) : bpIn1WIntRange v := by
  rw [in1W_iff] at *
  omega

theorem in1W_fmod (x : Int) {y : Int} (hy : y ≠ 0) (h : bpIn1WIntRange y) : bpIn1WIntRange (x.fmod y) := by
  have hb := (floorDivMod_fdiv x hy).bounds
  exact in1W_of_natAbs_le (by omega) h

theorem bpMathIdivDiv_denotes (x y : Number) (hy : y.val ≠ 0) :
    ∃ t, bpMathIdivDiv x.term y.term = .ok t ∧ Denotes t (x.val.fdiv y.val) := by
  rcases x with ⟨a | a, hx⟩ <;> rcases y with ⟨b | b, hyc⟩ <;> simp only [bpMathIdivDiv, Number.val] at hy ⊢
  · have hb : b ≠ 0 := hy
    have hfit := in1W_of_natAbs_le (Int.natAbs_fdiv_le_natAbs a b) hx
    rw [if_neg hb]
    split_ifs with h1 h2
    · refine ⟨_, rfl, ?_⟩
      rw [Int.tdiv_eq_ediv_of_nonneg (by omega), ← Int.fdiv_eq_ediv_of_nonneg a (by omega)]
      exact denotes_makeint hfit
    · refine ⟨_, rfl, ?_⟩
      rw [floorDouble_eq h2.1 hb]
      exact denotes_makeint hfit
    · exact ⟨_, rfl, bpDivBigintBigint_denotes (isBigint_bpIntToBigint a) (isBigint_bpIntToBigint b) hb⟩
  · exact ⟨_, rfl, bpDivBigintBigint_denotes (isBigint_bpIntToBigint a) (isBigint_of_canon hyc) hy⟩
  · have hb : b ≠ 0 := hy
    rw [if_neg hb]
    exact ⟨_, rfl, bpDivBigintBigint_denotes (isBigint_of_canon hx) (isBigint_bpIntToBigint b) hb⟩
  · exact ⟨_, rfl, bpDivBigintBigint_denotes (isBigint_of_canon hx) (isBigint_of_canon hyc) hy⟩

theorem bpMathMod_shortcut {b : Bigint} {y : Int} (hx : (Term.bigint b).Canon) (hy : y ≠ 0)
    (h0 : 0 ≤ (Term.bigint b).val) (hlt : (Term.bigint b).val < 2 ^ 63) :
    bpMathMod (.bigint b) (.int y) = .ok (makeint ((Term.bigint b).val.tmod y)) := by
  have hne := ne_zero_of_canon hx
  simp only [bpMathMod, bpBigintToNativeLong_eq hx, if_pos (And.intro h0 hlt), if_neg hy]
  rw [if_pos hne]

theorem bpMathMod_denotes (x y : Number) (hy : y.val ≠ 0) (hok : ¬ ModShortcutWrong x.val y.val) :
    ∃ t, bpMathMod x.term y.term = .ok t ∧ Denotes t (x.val.fmod y.val) := by
  rcases x with ⟨a | a, hx⟩ <;> rcases y with ⟨b | b, hyc⟩ <;> simp only [Number.val] at hy hok ⊢
  · have hb : b ≠ 0 := hy
    have hfit := in1W_fmod a hb hyc
    simp only [bpMathMod]
    rw [if_neg hb]
    split_ifs with h1 h2
    · refine ⟨_, rfl, ?_⟩
      rw [Int.tmod_eq_emod_of_nonneg (by omega), ← Int.fmod_eq_emod_of_nonneg a (by omega)]
      exact denotes_makeint hfit
    · refine ⟨_, rfl, ?_⟩
      have heq := Int.mul_fdiv_add_fmod a b
      rw [floorDouble_eq h2.1 hb, show a - a.fdiv b * b = a.fmod b by rw [mul_comm]; omega]
      exact denotes_makeint hfit
    · exact ⟨_, rfl, bpModBigintBigint_denotes (isBigint_bpIntToBigint a) (isBigint_bpIntToBigint b) hb⟩
  · exact ⟨_, rfl, bpModBigintBigint_denotes (isBigint_bpIntToBigint a) (isBigint_of_canon hyc) hy⟩
  · have hb : b ≠ 0 := hy
    have hlow := not_in1W_of_canon hx
    have hfit := in1W_fmod (Term.bigint a).val hb hyc
    by_cases hr : 0 ≤ (Term.bigint a).val ∧ (Term.bigint a).val < 2 ^ 63
    · refine ⟨_, bpMathMod_shortcut hx hb hr.1 hr.2, ?_⟩
      have heq : (Term.bigint a).val.tmod b = (Term.bigint a).val.fmod b := by
        rcases Int.lt_or_gt_of_ne hb with hneg | hpos
        · -- a negative divisor reaches the shortcut unharmed only when it divides
          have hdvd : b ∣ (Term.bigint a).val := by
            by_contra hnd
            have hb1 : bpMinint1W ≤ b := hyc.1
            rw [in1W_iff] at hlow
            exact hok ⟨by omega, hr.2, hb1, hneg, hnd⟩
          rw [Int.tmod_eq_zero_of_dvd hdvd, Int.fmod_eq_zero_of_dvd hdvd]
        · rw [Int.tmod_eq_emod_of_nonneg hr.1, Int.fmod_eq_emod_of_nonneg _ (by omega)]
      rw [heq]
      exact denotes_makeint hfit
    · have hlong := bpBigintToNativeLong_eq hx
      rw [if_neg hr] at hlong
      simp only [bpMathMod, hlong, if_neg hb, ne_eq, not_true_eq_false, if_false]
      exact ⟨_, rfl, bpModBigintBigint_denotes (isBigint_of_canon hx) (isBigint_bpIntToBigint b) hb⟩
  · exact ⟨_, rfl, bpModBigintBigint_denotes (isBigint_of_canon hx) (isBigint_of_canon hyc) hy⟩

/-- With a negative divisor that does not divide, the shortcut returns a positive remainder. -/
theorem bpMathMod_wrong (x y : Number) (h : ModShortcutWrong x.val y.val) :
    ∃ t, bpMathMod x.term y.term = .ok t ∧ 0 < t.val := by
  obtain ⟨hx0, hx1, hy0, hy1, hnd⟩ := h
  rcases x with ⟨a | a, hx⟩ <;> rcases y with ⟨b | b, hyc⟩ <;> simp only [Number.val] at hx0 hx1 hy0 hy1 hnd ⊢
  · exact absurd (in1W_iff.1 hx) (by rw [not_lt]; simp only [Term.val] at hx0; omega)
  · exact absurd (in1W_iff.1 hx) (by rw [not_lt]; simp only [Term.val] at hx0; omega)
  · have hb : b < 0 := hy1
    refine ⟨_, bpMathMod_shortcut hx (by omega) (by omega) hx1, ?_⟩
    have htm : (Term.bigint a).val.tmod b = (Term.bigint a).val % b := Int.tmod_eq_emod_of_nonneg (by omega)
    have hnn := Int.emod_nonneg (Term.bigint a).val (show b ≠ 0 by omega)
    have hlt := Int.emod_lt_abs (Term.bigint a).val (show b ≠ 0 by omega)
    rw [abs_of_neg hb] at hlt
    have hfit : bpIn1WIntRange ((Term.bigint a).val % b) := in1W_of_natAbs_le (by omega) hyc
    have hne : (Term.bigint a).val % b ≠ 0 := fun h0 => hnd (Int.dvd_of_emod_eq_zero h0)
    rw [htm, (denotes_makeint hfit).2]
    omega
  · have := not_in1W_of_canon hyc
    rw [in1W_iff] at this
    unfold bpMinint1W bpMaxint1W at hy0
    omega

section
variable {op1 : Bigint} {v w : Int}

theorem bpDivBigintBigint_abs (h1 : IsBigint op1 v) (hw : w ≠ 0) {t : Int} (ht : t = 1 ∨ t = -1)
    (hwt : t * w.natAbs = w) {b1 b2 : Bigint} (hb1 : IsBigint b1 v.natAbs) (hb2 : IsBigint b2 w.natAbs) :
    Denotes (if op1.sign * t = 1 then bpDivBigintBigint b1 b2 else negTerm (bpDivBigintBigint b1 b2)) (v.tdiv w) := by
  have hd := bpDivBigintBigint_denotes hb1 hb2 (by omega)
  have hs := IsBigint.sign_cases op1
  have htr := TruncDivMod.of_signs (a := v.natAbs) (b := w.natAbs) (by omega) (by omega) hs ht
  rw [h1.val_eq, hwt] at htr
  rw [((truncDivMod_tdiv v hw).unique htr).1]
  split_ifs with h
  · rwa [h, one_mul]
  · rw [show op1.sign * t = -1 by rcases hs with h' | h' <;> rcases ht with h'' | h'' <;> simp_all, neg_one_mul]
    exact negTerm_denotes hd

theorem bpModBigintBigint_abs (h1 : IsBigint op1 v) (hw : w ≠ 0) {b1 b2 : Bigint} (hb1 : IsBigint b1 v.natAbs)
    (hb2 : IsBigint b2 w.natAbs) :
    Denotes (if op1.sign = -1 then negTerm (bpModBigintBigint b1 b2) else bpModBigintBigint b1 b2) (v.tmod w) := by
  have hd := bpModBigintBigint_denotes hb1 hb2 (by omega)
  have hs := IsBigint.sign_cases op1
  have htr := TruncDivMod.of_signs (a := v.natAbs) (b := w.natAbs) (by omega) (by omega) hs
    (show w.sign = 1 ∨ w.sign = -1 by rcases Int.lt_or_gt_of_ne hw with h | h <;> simp [h])
  rw [h1.val_eq, Int.sign_mul_natAbs] at htr
  rw [((truncDivMod_tdiv v hw).unique htr).2]
  split_ifs with h
  · rw [h, neg_one_mul]
    exact negTerm_denotes hd
  · rwa [show op1.sign = 1 by omega, one_mul]

end

theorem bpMathIdiv_denotes (x y : Number) (hy : y.val ≠ 0) :
    ∃ t, bpMathIdiv x.term y.term = .ok t ∧ Denotes t (x.val.tdiv y.val) := by
  rcases x with ⟨a | a, hx⟩ <;> rcases y with ⟨b | b, hyc⟩ <;> simp only [bpMathIdiv, Number.val] at hy ⊢
  · have hb : b ≠ 0 := hy
    rw [if_neg hb]
    exact ⟨_, rfl, denotes_makeint (in1W_of_natAbs_le (Int.natAbs_tdiv_le_natAbs a b) hx)⟩
  · refine ⟨_, rfl, ?_⟩
    have hlow := not_in1W_of_canon hyc
    rw [in1W_iff] at hlow
    have hlt : a.natAbs < (Term.bigint b).val.natAbs := by
      have := in1W_iff.1 hx
      omega
    have htr : TruncDivMod (Term.int a).val (Term.bigint b).val 0 a :=
      ⟨by simp only [Term.val]; omega, .inr rfl, by rw [Int.abs_eq_natAbs, Int.abs_eq_natAbs]; omega⟩
    rw [((truncDivMod_tdiv (Term.int a).val hy).unique htr).1]
    exact denotes_zero
  · have hb : b ≠ 0 := hy
    rw [if_neg hb]
    refine ⟨_, rfl, ?_⟩
    have hb1 := isBigint_of_canon hx
    have habs := isBigint_bpAbsBigint hb1
    by_cases hneg : b < 0
    · have hb2 := isBigint_bpIntToBigint (-b)
      rw [show -b = ((Term.int b).val.natAbs : Int) by simp only [Term.val]; omega] at hb2 ⊢
      have h := bpDivBigintBigint_abs hb1 (w := (Term.int b).val) hb (.inr rfl)
        (by simp only [Term.val]; omega) habs hb2
      rw [mul_neg_one] at h
      simpa only [if_pos hneg] using h
    · have hb2 := isBigint_bpIntToBigint b
      have hbv : b = ((Term.int b).val.natAbs : Int) := by simp only [Term.val]; omega
      have h := bpDivBigintBigint_abs hb1 (w := (Term.int b).val) hb (.inl rfl)
        (by rw [one_mul]; exact hbv.symm) habs (by rw [← hbv]; exact hb2)
      rw [mul_one] at h
      simpa only [if_neg hneg] using h
  · refine ⟨_, rfl, ?_⟩
    have hb1 := isBigint_of_canon hx
    have hb2 := isBigint_of_canon hyc
    exact bpDivBigintBigint_abs hb1 hy (IsBigint.sign_cases b) hb2.val_eq (isBigint_bpAbsBigint hb1)
      (isBigint_bpAbsBigint hb2)

theorem bpMathRem_denotes (x y : Number) (hy : y.val ≠ 0) :
    ∃ t, bpMathRem x.term y.term = .ok t ∧ Denotes t (x.val.tmod y.val) := by
  rcases x with ⟨a | a, hx⟩ <;> rcases y with ⟨b | b, hyc⟩ <;> simp only [bpMathRem, Number.val] at hy ⊢
  · have hb : b ≠ 0 := hy
    rw [if_neg hb]
    refine ⟨_, rfl, denotes_makeint (in1W_of_natAbs_le (w := b) ?_ hyc)⟩
    rw [Int.natAbs_tmod]
    exact le_of_lt (Nat.mod_lt _ (by omega))
  · refine ⟨_, rfl, ?_⟩
    have hb1 := isBigint_bpIntToBigint (if a < 0 then -a else a)
    rw [show (if a < 0 then -a else a) = (a.natAbs : Int) by split_ifs <;> omega] at hb1 ⊢
    have hd := bpModBigintBigint_denotes hb1 (isBigint_bpAbsBigint (isBigint_of_canon hyc)) (by omega)
    have htr := TruncDivMod.of_signs (a := a.natAbs) (b := (Term.bigint b).val.natAbs) (s := if a < 0 then -1 else 1)
      (by omega) (by omega) (by split_ifs <;> simp) (IsBigint.sign_cases b)
    rw [(isBigint_of_canon hyc).val_eq, show (if a < 0 then -1 else 1 : Int) * a.natAbs = (Term.int a).val by
        simp only [Term.val]; split_ifs <;> omega] at htr
    rw [((truncDivMod_tdiv (Term.int a).val hy).unique htr).2]
    split_ifs with h
    · rw [neg_one_mul]
      exact negTerm_denotes hd
    · rwa [one_mul]
  · have hb : b ≠ 0 := hy
    rw [if_neg hb]
    refine ⟨_, rfl, ?_⟩
    have hb1 := isBigint_of_canon hx
    have hs := IsBigint.sign_cases a
    have hb2 := isBigint_bpIntToBigint (if b < 0 then -b else b)
    have hbv : (if b < 0 then -b else b) = ((Term.int b).val.natAbs : Int) := by
      simp only [Term.val]
      split_ifs <;> omega
    have habs : IsBigint (if a.sign < 0 then bpNegBigint a else a) (Term.bigint a).val.natAbs := by
      have hval := hb1.val_eq
      split_ifs with h
      · have hn := isBigint_bpNegBigint hb1
        rw [show a.sign = -1 by omega] at hval
        rwa [show -(Term.bigint a).val = ((Term.bigint a).val.natAbs : Int) by omega] at hn
      · rw [show a.sign = 1 by omega, one_mul] at hval
        rwa [hval]
    rw [hbv] at hb2 ⊢
    exact bpModBigintBigint_abs hb1 (w := (Term.int b).val) hb habs hb2
  · exact ⟨_, rfl, bpModBigintBigint_abs (isBigint_of_canon hx) hy (isBigint_bpAbsBigint (isBigint_of_canon hx))
      (isBigint_bpAbsBigint (isBigint_of_canon hyc))⟩

/-- `//` and `rem` are the truncating division, with canonical results. -/
theorem bpMath_idiv_rem_trunc (x y : Number) (hy : y.val ≠ 0) :
    ∃ q r, bpMathIdiv x.term y.term = .ok q ∧ bpMathRem x.term y.term = .ok r ∧ q.Canon ∧ r.Canon ∧
      TruncDivMod x.val y.val q.val r.val := by
  obtain ⟨q, hq, hqc, hqv⟩ := bpMathIdiv_denotes x y hy
  obtain ⟨r, hr, hrc, hrv⟩ := bpMathRem_denotes x y hy
  refine ⟨q, r, hq, hr, hqc, hrc, ?_⟩
  rw [hqv, hrv]
  exact truncDivMod_tdiv _ hy

theorem bpMath_idiv_rem_seven_two : ∃ q r, bpMathIdiv (.int 7) (.int (-2)) = .ok q ∧
    bpMathRem (.int 7) (.int (-2)) = .ok r ∧ q.Canon ∧ r.Canon ∧ TruncDivMod 7 (-2) q.val r.val :=
  bpMath_idiv_rem_trunc ⟨.int 7, by unfold Term.Canon; decide⟩ ⟨.int (-2), by unfold Term.Canon; decide⟩ (by decide)

end Picat
