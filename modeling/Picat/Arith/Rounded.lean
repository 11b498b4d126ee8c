import Picat.Arith.Div

/-!
# Rounded divisions

`/>` rounds up and `/<` rounds down. Two words are divided by the macros `UP_DIV` and `LOW_DIV`; with a bigint the
magnitudes are divided and the quotient is corrected by the sign.

* `LowDivWrong` : where the bigint path of `/<` forgets the sign of an exact quotient, or leaves the range of one
  word; `bpMathDiv_rounded_iff` : the operands for which both operators are right.
-/

namespace Picat
open Digits IntDivision

/-! ## Words -/

/-- `UP_DIV`, for `a > 0`. -/
def wordUpDiv (x a : Int) : Int :=
  if x ≥ 0 then
    let v := x.tdiv a
    if v * a ≠ x then v + 1 else v
  else x.tdiv a

/-- `LOW_DIV`, for `a > 0`. -/
def wordLowDiv (x a : Int) : Int :=
  if x ≥ 0 then x.tdiv a
  else
    let v := x.tdiv a
    if v * a ≠ x then v - 1 else v

section
variable {x a : Int}

theorem tdiv_mul_ne_iff : x.tdiv a * a ≠ x ↔ ¬ a ∣ x := by
  rw [not_iff_not]
  exact ⟨fun h => ⟨_, by rw [Int.mul_comm]; exact h.symm⟩, fun h => Int.tdiv_mul_cancel h⟩

theorem wordUpDiv_eq (ha : 0 < a) : wordUpDiv x a = -(-x / a) := by
  have hsign : a.sign = 1 := Int.sign_eq_one_of_pos ha
  simp only [wordUpDiv]
  split_ifs with hx h
  · rw [tdiv_mul_ne_iff] at h
    rw [Int.neg_ediv, if_neg h, hsign, Int.tdiv_eq_ediv_of_nonneg hx]
    omega
  · rw [tdiv_mul_ne_iff, not_not] at h
    rw [Int.neg_ediv, if_pos h, Int.tdiv_eq_ediv_of_nonneg hx]
    omega
  · rw [← Int.tdiv_eq_ediv_of_nonneg (by omega), Int.neg_tdiv, neg_neg]

theorem wordLowDiv_eq (ha : 0 < a) : wordLowDiv x a = x / a := by
  have hsign : a.sign = 1 := Int.sign_eq_one_of_pos ha
  have hneg : x < 0 → x.tdiv a = -(-x / a) := by
    intro hx
    rw [← Int.tdiv_eq_ediv_of_nonneg (by omega), Int.neg_tdiv, neg_neg]
  have hquot := Int.neg_ediv (a := x) (b := a)
  simp only [wordLowDiv]
  split_ifs with hx h
  · exact Int.tdiv_eq_ediv_of_nonneg hx
  · rw [tdiv_mul_ne_iff] at h
    rw [if_neg h, hsign] at hquot
    rw [hneg (by omega)]
    omega
  · rw [tdiv_mul_ne_iff, not_not] at h
    rw [if_pos h] at hquot
    rw [hneg (by omega)]
    omega

end

/-! ## Bigints -/

/-- Both operands with the signs turned, so that the divisor is positive. -/
def positiveDivisor (op1 op2 : Bigint) : Bigint × Bigint :=
  if op2.sign < 0 then (bpNegBigint op1, bpNegBigint op2) else (op1, op2)

/-- `tmp + 1`, in one word or as a bigint. -/
def incTerm : Term → Term
  | .int t => if t + 1 ≤ bpMaxint1W then makeint (t + 1) else .bigint (bpIntToBigint (t + 1))
  | .bigint t => bpAddBigintBigint t (bpIntToBigint 1)

/-- `-tmp - 1`, a word kept in one word. -/
def negDecTerm : Term → Term
  | .int t => makeint (-t - 1)
  | .bigint t => bpSubBigintBigint (bpNegBigint t) (bpIntToBigint 1)

def bpUpdivBigintBigint (op1 op2 : Bigint) : Term :=
  let (op1, op2) := positiveDivisor op1 op2
  let sign := op1.sign
  let op1 := bpAbsBigint op1
  let tmp := bpDivBigintBigint op1 op2
  if sign > 0 then
    if bpModBigintBigint op1 op2 ≠ .int 0 then incTerm tmp else tmp
  else negTerm tmp

def bpLowdivBigintBigint (op1 op2 : Bigint) : Term :=
  let (op1, op2) := positiveDivisor op1 op2
  let sign := op1.sign
  let op1 := bpAbsBigint op1
  let tmp := bpDivBigintBigint op1 op2
  if sign < 0 then
    if bpModBigintBigint op1 op2 ≠ .int 0 then negDecTerm tmp else tmp
  else tmp

/-- How a rounded division ends; `trap` is the machine's division by zero. -/
inductive RoundedDiv
  | value (t : Term)
  | zeroDivisor
  | trap
deriving DecidableEq, Repr

/-- `bp_math_divge`, the operator `/>`, on integers. -/
def bpMathDivge : Term → Term → RoundedDiv
  | .int op1, .int op2 =>
    if op2 = 0 then .trap
    else if op2 < 0 then .value (makeint (wordUpDiv (-op1) (-op2)))
    else .value (makeint (wordUpDiv op1 op2))
  | .int op1, .bigint op2 => .value (bpUpdivBigintBigint (bpIntToBigint op1) op2)
  | .bigint op1, .int op2 => .value (bpUpdivBigintBigint op1 (bpIntToBigint op2))
  | .bigint op1, .bigint op2 => .value (bpUpdivBigintBigint op1 op2)

/-- `bp_math_divle`, the operator `/<`, on integers. -/
def bpMathDivle : Term → Term → RoundedDiv
  | .int op1, .int op2 =>
    if op2 = 0 then .trap
    else if op2 < 0 then .value (makeint (wordLowDiv (-op1) (-op2)))
    else .value (makeint (wordLowDiv op1 op2))
  | .int op1, .bigint op2 => .value (bpLowdivBigintBigint (bpIntToBigint op1) op2)
  | .bigint op1, .int op2 => .value (bpLowdivBigintBigint op1 (bpIntToBigint op2))
  | .bigint op1, .bigint op2 => .value (bpLowdivBigintBigint op1 op2)

/-- `/>` and `/<` return ceiling and floor of the exact quotient, and report a zero divisor. -/
structure RoundedDivMeets (x y : Number) : Prop where
  up : y.val ≠ 0 → ∃ t, bpMathDivge x.term y.term = .value t ∧ Denotes t ⌈(x.val : ℚ) / y.val⌉
  low : y.val ≠ 0 → ∃ t, bpMathDivle x.term y.term = .value t ∧ Denotes t ⌊(x.val : ℚ) / y.val⌋
  zero : y.val = 0 → bpMathDivge x.term y.term = .zeroDivisor ∧ bpMathDivle x.term y.term = .zeroDivisor

/-- A negative quotient that is exact, or whose magnitude rounds down to the largest word. -/
def LowDivWrong (x y : Int) : Prop :=
  x * y < 0 ∧ (y ∣ x ∨ (bpMaxint1W * |y| ≤ |x| ∧ |x| < (bpMaxint1W + 1) * |y|))

theorem floor_div_of_pos (x : Int) {a : Int} (ha : 0 < a) : ⌊(x : ℚ) / a⌋ = x / a := by
  obtain ⟨d, rfl⟩ := Int.eq_ofNat_of_zero_le (le_of_lt ha)
  exact_mod_cast Rat.floor_intCast_div_natCast x d

theorem ceil_div_of_pos (x : Int) {a : Int} (ha : 0 < a) : ⌈(x : ℚ) / a⌉ = -(-x / a) := by
  obtain ⟨d, rfl⟩ := Int.eq_ofNat_of_zero_le (le_of_lt ha)
  exact_mod_cast Rat.ceil_intCast_div_natCast x d

theorem positiveDivisor_spec {op1 op2 : Bigint} {v w : Int} (h1 : IsBigint op1 v) (h2 : IsBigint op2 w)
    (hw : w ≠ 0) : ∃ v' w' : Int, IsBigint (positiveDivisor op1 op2).1 v' ∧ IsBigint (positiveDivisor op1 op2).2 w' ∧
      0 < w' ∧ (v' : ℚ) / w' = v / w ∧ v'.natAbs = v.natAbs ∧ w'.natAbs = w.natAbs ∧ (v' < 0 ↔ v * w < 0) := by
  have hval := h2.val_eq
  rcases IsBigint.sign_cases op2 with hs | hs
  · rw [hs, one_mul] at hval
    have hpos : 0 < w := by omega
    rw [positiveDivisor, if_neg (by omega)]
    exact ⟨v, w, h1, h2, hpos, rfl, rfl, rfl, by rw [mul_neg_iff]; omega⟩
  · rw [hs, neg_one_mul] at hval
    have hneg : w < 0 := by omega
    rw [positiveDivisor, if_pos (by omega)]
    refine ⟨-v, -w, isBigint_bpNegBigint h1, isBigint_bpNegBigint h2, by omega, ?_, by omega, by omega, ?_⟩
    · push_cast
      exact neg_div_neg_eq _ _
    · rw [mul_neg_iff]
      omega

/-! ## The bigint paths -/

section
variable {op1 op2 : Bigint} {v w : Int}

theorem magnitudeDivision (h1 : IsBigint op1 v) (h2 : IsBigint op2 w) (hw : 0 < w) :
    Denotes (bpDivBigintBigint (bpAbsBigint op1) op2) ((v.natAbs : Int) / w) ∧
      (bpModBigintBigint (bpAbsBigint op1) op2 ≠ .int 0 ↔ ¬ w ∣ v) := by
  have habs := isBigint_bpAbsBigint h1
  have hd := bpDivBigintBigint_denotes habs h2 (by omega)
  have hm := bpModBigintBigint_denotes habs h2 (by omega)
  rw [Int.fdiv_eq_ediv_of_nonneg _ (by omega)] at hd
  rw [Int.fmod_eq_emod_of_nonneg _ (by omega)] at hm
  refine ⟨hd, not_congr ?_⟩
  rw [← Int.dvd_natAbs]
  constructor
  · intro h
    have hv := hm.2
    rw [h] at hv
    exact Int.dvd_of_emod_eq_zero hv.symm
  · intro h
    rw [Int.emod_eq_zero_of_dvd h] at hm
    exact hm.unique denotes_zero

theorem sign_pos_iff (h1 : IsBigint op1 v) : op1.sign > 0 ↔ 0 ≤ v := by
  rw [h1.sign_eq]
  split_ifs <;> omega

theorem incTerm_denotes {t : Term} {q : Int} (h : Denotes t q) (hq : 0 ≤ q) : Denotes (incTerm t) (q + 1) := by
  obtain ⟨hc, rfl⟩ := h
  cases t with
  | int t =>
    have hr : bpIn1WIntRange (t + 1) ↔ t + 1 ≤ bpMaxint1W := by
      simp only [Term.val] at hq
      unfold bpIn1WIntRange bpMinint1W bpMaxint1W
      omega
    have h1 := denotes_word (t + 1)
    simp only [hr] at h1
    exact h1
  | bigint t =>
    exact bpAddBigintBigint_denotes (isBigint_of_canon hc) (isBigint_bpIntToBigint 1) (.inr one_ne_zero)

theorem negDecTerm_iff {t : Term} {q : Int} (h : Denotes t q) (hq : 0 ≤ q) :
    Denotes (negDecTerm t) (-q - 1) ↔ q ≠ bpMaxint1W := by
  obtain ⟨hc, rfl⟩ := h
  cases t with
  | int t =>
    have hw : bpIn1WIntRange t := hc
    simp only [Term.val] at hq ⊢
    constructor
    · rintro ⟨hcanon, -⟩ hmax
      have hr : bpIn1WIntRange ((-t - 1).bmod (2 ^ 61)) := hcanon
      rw [hmax] at hr
      exact absurd hr (by decide)
    · intro hne
      apply denotes_makeint
      unfold bpIn1WIntRange bpMinint1W bpMaxint1W at *
      omega
  | bigint t =>
    have hnot := not_in1W_of_canon hc
    refine iff_of_true ?_ ?_
    · exact bpSubBigintBigint_denotes (isBigint_bpNegBigint (isBigint_of_canon hc)) (isBigint_bpIntToBigint 1)
        (.inr one_ne_zero)
    · intro hmax
      rw [hmax] at hnot
      exact hnot (by decide)

theorem bpUpdivBigintBigint_denotes (h1 : IsBigint op1 v) (h2 : IsBigint op2 w) (hw : w ≠ 0) :
    Denotes (bpUpdivBigintBigint op1 op2) ⌈(v : ℚ) / w⌉ := by
  obtain ⟨v', w', hv', hw', hpos, hq, -, -, -⟩ := positiveDivisor_spec h1 h2 hw
  obtain ⟨hd, hm⟩ := magnitudeDivision hv' hw' hpos
  have hsign := Int.sign_eq_one_of_pos hpos
  have hneg := Int.neg_ediv (a := v') (b := w')
  rw [← hq, ceil_div_of_pos _ hpos]
  simp only [bpUpdivBigintBigint, sign_pos_iff hv', hm]
  split_ifs with h0 hdvd
  · rw [show (v'.natAbs : Int) = v' by omega] at hd
    rw [if_pos hdvd] at hneg
    rwa [show -(-v' / w') = v' / w' by omega]
  · rw [show (v'.natAbs : Int) = v' by omega] at hd
    rw [if_neg hdvd, hsign] at hneg
    rw [show -(-v' / w') = v' / w' + 1 by omega]
    exact incTerm_denotes hd (Int.ediv_nonneg h0 (le_of_lt hpos))
  · rw [show (v'.natAbs : Int) = -v' by omega] at hd
    exact negTerm_denotes hd

/-- The bigint path of `/<` is right unless the quotient is negative and exact, or its magnitude rounds down to the
largest word. -/
theorem bpLowdivBigintBigint_iff (h1 : IsBigint op1 v) (h2 : IsBigint op2 w) (hw : w ≠ 0) :
    Denotes (bpLowdivBigintBigint op1 op2) ⌊(v : ℚ) / w⌋ ↔ ¬ LowDivWrong v w := by
  obtain ⟨v', w', hv', hw', hpos, hq, hva, hwa, hlt⟩ := positiveDivisor_spec h1 h2 hw
  obtain ⟨hd, hm⟩ := magnitudeDivision hv' hw' hpos
  have hsign := Int.sign_eq_one_of_pos hpos
  have hdvd : w' ∣ v' ↔ w ∣ v := by rw [← Int.natAbs_dvd_natAbs, hva, hwa, Int.natAbs_dvd_natAbs]
  have hwrong : LowDivWrong v w ↔ v' < 0 ∧ (w' ∣ v' ∨ (bpMaxint1W * w' ≤ -v' ∧ -v' < (bpMaxint1W + 1) * w')) := by
    unfold LowDivWrong
    rw [← hlt, hdvd, Int.abs_eq_natAbs, Int.abs_eq_natAbs, ← hva, ← hwa, show (w'.natAbs : Int) = w' by omega]
    apply and_congr_right
    intro hneg
    rw [show (v'.natAbs : Int) = -v' by omega]
  rw [← hq, floor_div_of_pos _ hpos, hwrong]
  have hs : (positiveDivisor op1 op2).1.sign < 0 ↔ v' < 0 := by
    have h := sign_pos_iff hv'
    rcases IsBigint.sign_cases (positiveDivisor op1 op2).1 with hs | hs <;> omega
  simp only [bpLowdivBigintBigint, hs, hm]
  by_cases h0 : v' < 0
  · rw [show (v'.natAbs : Int) = -v' by omega] at hd
    have hneg := Int.neg_ediv (a := -v') (b := w')
    have hq0 : 0 ≤ -v' / w' := Int.ediv_nonneg (by omega) (le_of_lt hpos)
    simp only [neg_neg, Int.dvd_neg, hsign] at hneg
    rw [if_pos h0]
    by_cases hdv : w' ∣ v'
    · -- the exact quotient is returned with the wrong sign
      rw [if_pos hdv] at hneg
      rw [if_neg (not_not.2 hdv)]
      refine iff_of_false ?_ (not_not.2 ⟨h0, .inl hdv⟩)
      intro hp
      obtain ⟨-, hval⟩ := hp
      have hmul := Int.ediv_mul_cancel (Int.dvd_neg.2 hdv)
      rw [hd.2] at hval
      have hz : -v' / w' = 0 := by omega
      rw [hz, zero_mul] at hmul
      omega
    · rw [if_neg hdv] at hneg
      rw [if_pos hdv, hneg, negDecTerm_iff hd hq0]
      have hquot : -v' / w' = bpMaxint1W ↔ bpMaxint1W * w' ≤ -v' ∧ -v' < (bpMaxint1W + 1) * w' := by
        rw [← Int.le_ediv_iff_mul_le hpos, ← Int.ediv_lt_iff_lt_mul hpos]
        omega
      rw [ne_eq, hquot]
      simp only [h0, hdv, true_and, false_or]
  · rw [show (v'.natAbs : Int) = v' by omega] at hd
    rw [if_neg h0]
    exact iff_of_true hd (fun h => h0 h.1)

end

/-! ## The operators -/

section
variable {a b : Int}

theorem in1W_rounded (ha : bpIn1WIntRange a) (b : Int) : bpIn1WIntRange (a / b) ∧ bpIn1WIntRange (-(-a / b)) := by
  refine ⟨in1W_of_natAbs_le (Int.natAbs_ediv_le_natAbs a b) ha, in1W_of_natAbs_le (w := a) ?_ ha⟩
  rw [Int.natAbs_neg]
  exact le_trans (Int.natAbs_ediv_le_natAbs (-a) b) (le_of_eq (Int.natAbs_neg a))

theorem bpMathDiv_rounded_words (ha : bpIn1WIntRange a) (hb : b ≠ 0) :
    (∃ t, bpMathDivge (.int a) (.int b) = .value t ∧ Denotes t ⌈(a : ℚ) / b⌉) ∧
      ∃ t, bpMathDivle (.int a) (.int b) = .value t ∧ Denotes t ⌊(a : ℚ) / b⌋ := by
  have hna : bpIn1WIntRange (-a) := in1W_of_natAbs_le (le_of_eq (Int.natAbs_neg a)) ha
  simp only [bpMathDivge, bpMathDivle, if_neg hb]
  rcases Int.lt_or_gt_of_ne hb with hneg | hpos
  · have hpos : 0 < -b := by omega
    have hq : (a : ℚ) / b = ((-a : Int) : ℚ) / ((-b : Int) : ℚ) := by
      push_cast
      exact (neg_div_neg_eq _ _).symm
    rw [if_pos hneg, if_pos hneg, hq, ceil_div_of_pos _ hpos, floor_div_of_pos _ hpos, wordUpDiv_eq hpos,
      wordLowDiv_eq hpos]
    exact ⟨⟨_, rfl, denotes_makeint (in1W_rounded hna (-b)).2⟩, ⟨_, rfl, denotes_makeint (in1W_rounded hna (-b)).1⟩⟩
  · rw [if_neg (by omega), if_neg (by omega), ceil_div_of_pos _ hpos, floor_div_of_pos _ hpos, wordUpDiv_eq hpos,
      wordLowDiv_eq hpos]
    exact ⟨⟨_, rfl, denotes_makeint (in1W_rounded ha b).2⟩, ⟨_, rfl, denotes_makeint (in1W_rounded ha b).1⟩⟩

end

theorem bpMathDivge_ne_zeroDivisor (s t : Term) : bpMathDivge s t ≠ .zeroDivisor := by
  cases s <;> cases t <;> simp only [bpMathDivge]
  · split_ifs <;> exact fun h => by cases h
  all_goals exact fun h => by cases h

theorem bpMathDiv_rounded_bigint (x y : Number) (h : ¬ (bpIn1WIntRange x.val ∧ bpIn1WIntRange y.val)) :
    ∃ op1 op2, IsBigint op1 x.val ∧ IsBigint op2 y.val ∧
      bpMathDivge x.term y.term = .value (bpUpdivBigintBigint op1 op2) ∧
      bpMathDivle x.term y.term = .value (bpLowdivBigintBigint op1 op2) := by
  rcases x with ⟨a | a, hx⟩ <;> rcases y with ⟨b | b, hy⟩
  · exact absurd ⟨hx, hy⟩ h
  · exact ⟨_, _, isBigint_bpIntToBigint a, isBigint_of_canon hy, rfl, rfl⟩
  · exact ⟨_, _, isBigint_of_canon hx, isBigint_bpIntToBigint b, rfl, rfl⟩
  · exact ⟨_, _, isBigint_of_canon hx, isBigint_of_canon hy, rfl, rfl⟩

/-- Where both rounded divisions are right: on two words, and with a bigint outside the cases that `/<` gets wrong.
Neither looks for a zero divisor. -/
theorem bpMathDiv_rounded_iff (x y : Number) : RoundedDivMeets x y ↔
      y.val ≠ 0 ∧ (bpIn1WIntRange x.val ∧ bpIn1WIntRange y.val ∨ ¬ LowDivWrong x.val y.val) := by
  by_cases hy : y.val = 0
  · refine iff_of_false (fun h => ?_) (fun h => h.1 hy)
    exact bpMathDivge_ne_zeroDivisor _ _ (h.zero hy).1
  · by_cases hw : bpIn1WIntRange x.val ∧ bpIn1WIntRange y.val
    · refine iff_of_true ?_ ⟨hy, .inl hw⟩
      rcases x with ⟨a | a, hx⟩
      · rcases y with ⟨b | b, hyc⟩
        · obtain ⟨hup, hlow⟩ := bpMathDiv_rounded_words hx hy
          exact ⟨fun _ => hup, fun _ => hlow, fun h => absurd h hy⟩
        · exact absurd hw.2 (not_in1W_of_canon hyc)
      · exact absurd hw.1 (not_in1W_of_canon hx)
    · obtain ⟨op1, op2, h1, h2, hge, hle⟩ := bpMathDiv_rounded_bigint x y hw
      have hlow := bpLowdivBigintBigint_iff h1 h2 hy
      constructor
      · intro h
        refine ⟨hy, .inr ?_⟩
        obtain ⟨t, ht, hd⟩ := h.low hy
        rw [hle] at ht
        rw [← RoundedDiv.value.inj ht] at hd
        exact hlow.1 hd
      · intro hp
        obtain ⟨-, hok⟩ := hp
        refine ⟨fun _ => ⟨_, hge, bpUpdivBigintBigint_denotes h1 h2 hy⟩, fun _ => ⟨_, hle, ?_⟩, fun h => absurd h hy⟩
        exact hlow.2 (hok.resolve_left hw)

/-- `-2^60 /< 2` is `2^59`. -/
theorem bpMathDivle_two_pow_60 : ¬ ∀ x y : Number, RoundedDivMeets x y := by
  intro h
  have hm := h ⟨.bigint ⟨-3, [0, 0, 16]⟩, by unfold Term.Canon Valid Stripped; decide⟩
    ⟨.int 2, by unfold Term.Canon; decide⟩
  obtain ⟨t, ht, hd⟩ := hm.low (by decide)
  have h2 : bpIntToBigint 2 = ⟨1, [2]⟩ := by
    simp [bpIntToBigint, bpMakeBigintFromUbig, intDigits, bpBigintBase]
  have h1 : bpMathDivle (.bigint ⟨-3, [0, 0, 16]⟩) (.int 2) = .value (.bigint ⟨3, [0, 0, 8]⟩) := by
    rw [bpMathDivle, h2]
    decide
  rw [h1] at ht
  have hv := hd.2
  rw [← RoundedDiv.value.inj ht, floor_div_of_pos _ (by decide)] at hv
  exact absurd hv (by decide)

end Picat
