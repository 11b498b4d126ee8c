import Picat.Bigint.UbigMul

/-!
# Unsigned big integers: division

`bp_div_ubig_ubig` finds the quotient bit by bit from the top: bit `i2` of block `i` is set when
`y << (i blocks and i2 bits)` can be subtracted from what is left in `r`.

* `bpDivUbigUbig_exact` : quotient and remainder, for every dividend that is as long as the divisor.
-/

namespace Picat
open Digits List

/-- The words `r[i], ..., r[max(xsize, i + ysize + 1) - 1]` that one subtraction reads. -/
def divWindow (xsize : Nat) (y : List Nat) (i : Nat) (r : List Nat) : List Nat :=
  (r.take (max xsize (i + y.length + 1))).drop i

/-- One pass of the bit loop of `bp_div_ubig_ubig`: `r` with `y << (i blocks and i2 bits)` subtracted,
or `none` when a borrow is left and `r` is not changed. -/
def divTry (xsize : Nat) (y : List Nat) (i i2 : Nat) (r : List Nat) : Option (List Nat) :=
  let w := divWindow xsize y i r
  let (buf, borrow) := subLoop w (shiftedDigits y i2) 0
  let (buf', borrow) := borrowLoop (w.drop (shiftedDigits y i2).length) borrow
  if borrow = 0 then some (r.take i ++ (buf ++ buf') ++ r.drop (max xsize (i + y.length + 1))) else none

/-- The loop over the bits `i2` of block `i`: `q[i]` and `r`. -/
def divBits (xsize : Nat) (y : List Nat) (i : Nat) : Nat → Nat → List Nat → Nat × List Nat
  | 0, qi, r => (qi, r)
  | i2 + 1, qi, r =>
    match divTry xsize y i i2 r with
    | some r' => divBits xsize y i i2 (qi ||| (1 <<< i2)) r'
    | none => divBits xsize y i i2 qi r

/-- The loop over the blocks `i`, from the top: `q` above block `i`, and `r`. -/
def divBlocks (xsize : Nat) (y : List Nat) : Nat → List Nat → List Nat → List Nat × List Nat
  | 0, q, r => (q, r)
  | i + 1, q, r =>
    let (qi, r) := divBits xsize y i 28 0 r
    divBlocks xsize y i (qi :: q) r

/-- `bp_div_ubig_ubig`: quotient and remainder, for `x >= y` and `ysize >= 1`. -/
def bpDivUbigUbig (x y : List Nat) : List Nat × List Nat :=
  let (q, r) := divBlocks x.length y (x.length - y.length + 1) [] (x ++ [0])
  (zapOne q, zapLeadingZeros r)

section
variable {xsize v i : Nat} {y r : List Nat}

/-- The window and what lies below it are the whole value: `r` has nothing above `xsize` words. -/
theorem divWindow_value (hr : Holds (xsize + 1) r v) (hv : v < bpBigintBase ^ xsize) (hi : i + y.length ≤ xsize) :
    ubigVal (r.take i) + bpBigintBase ^ i * ubigVal (divWindow xsize y i r) = v ∧
      ubigVal (r.drop (max xsize (i + y.length + 1))) = 0 ∧
      (divWindow xsize y i r).length = max xsize (i + y.length + 1) - i := by
  have hlen := hr.length
  have hm : max xsize (i + y.length + 1) ≤ r.length := by omega
  have him : i ≤ (r.take (max xsize (i + y.length + 1))).length := by
    rw [length_take]
    omega
  have h1 := ofDigits_take_add_drop bpBigintBase r hm
  have h2 := ofDigits_take_add_drop bpBigintBase _ him
  rw [take_take, show min i (max xsize (i + y.length + 1)) = i by omega] at h2
  have hval := hr.val_eq
  have htop : Nat.ofDigits bpBigintBase (r.drop (max xsize (i + y.length + 1))) = 0 := by
    by_contra hne
    have hp := Nat.pow_le_pow_right (n := bpBigintBase) (by decide) (le_max_left xsize (i + y.length + 1))
    have := Nat.le_mul_of_pos_right (bpBigintBase ^ max xsize (i + y.length + 1)) (Nat.pos_of_ne_zero hne)
    simp only [ubigVal] at hval
    omega
  refine ⟨?_, htop, ?_⟩
  · rw [htop] at h1
    simp only [ubigVal, divWindow] at hval ⊢
    omega
  · rw [divWindow, length_drop, length_take]
    omega

theorem divTry_spec {i2 : Nat} (hy : Valid bpBigintBase y) (hr : Holds (xsize + 1) r v)
    (hv : v < bpBigintBase ^ xsize) (hi : i + y.length ≤ xsize) (hi2 : i2 < 28) :
    (bpBigintBase ^ i * (ubigVal y * 2 ^ i2) ≤ v ∧ ∃ r', divTry xsize y i i2 r = some r' ∧
        Holds (xsize + 1) r' (v - bpBigintBase ^ i * (ubigVal y * 2 ^ i2))) ∨
      (v < bpBigintBase ^ i * (ubigVal y * 2 ^ i2) ∧ divTry xsize y i i2 r = none) := by
  have hlen := hr.length
  obtain ⟨hw, htop, hwl⟩ := divWindow_value hr hv hi
  have hwv : Valid bpBigintBase (divWindow xsize y i r) := (hr.valid.take _).drop i
  obtain ⟨ho, hs⟩ := subLoop_borrowLoop_spec hwv (valid_shiftedDigits hy hi2)
    (by rw [length_shiftedDigits, hwl]; omega) rfl rfl
  rw [ubigVal_shiftedDigits hy hi2] at hs
  have hbuf := ofDigits_lt_pow one_lt_base ho.valid
  rw [ho.length] at hbuf
  have hlow := ofDigits_lt_pow one_lt_base (hr.valid.take i)
  rw [length_take, Nat.min_eq_left (by omega)] at hlow
  simp only [divTry]
  set w := divWindow xsize y i r
  set s := subLoop w (shiftedDigits y i2) 0
  set t := borrowLoop (w.drop (shiftedDigits y i2).length) s.2
  rcases Nat.le_one_iff_eq_zero_or_eq_one.1 ho.bit with hc | hc
  · -- no borrow: the window held the shifted `y`
    left
    simp only at hc
    rw [hc, Nat.mul_zero, Nat.add_zero] at hs
    have hm := congrArg (bpBigintBase ^ i * ·) hs
    simp only [mul_add] at hm
    have hol := ho.length
    rw [hwl] at hol
    simp only at hol
    refine ⟨by omega, _, if_pos hc, ?_, ?_, ?_⟩
    · exact valid_append.2 ⟨valid_append.2 ⟨hr.valid.take i, ho.valid⟩, hr.valid.drop _⟩
    · rw [length_append, length_append, hol, length_take, length_drop]
      omega
    · rw [ubigVal, Nat.ofDigits_append, Nat.ofDigits_append, length_take, Nat.min_eq_left (by omega)]
      simp only [ubigVal] at htop hw hm ⊢
      rw [htop]
      omega
  · right
    simp only at hc
    rw [hc, Nat.mul_one] at hs
    have hlt : ubigVal w + 1 ≤ ubigVal y * 2 ^ i2 := by
      simp only [ubigVal] at hs hbuf ⊢
      omega
    have hm := Nat.mul_le_mul_left (bpBigintBase ^ i) hlt
    rw [mul_add] at hm
    refine ⟨?_, if_neg (by omega)⟩
    simp only [ubigVal] at hw hm hlow ⊢
    omega

theorem or_one_shiftLeft {q n : Nat} (h : 2 ^ (n + 1) ∣ q) : q ||| (1 <<< n) = q + 2 ^ n := by
  obtain ⟨a, rfl⟩ := h
  rw [Nat.one_shiftLeft, Nat.two_pow_add_eq_or_of_lt (Nat.pow_lt_pow_right (by decide) (Nat.lt_succ_self n))]

theorem divBits_spec (hy : Valid bpBigintBase y) (hi : i + y.length ≤ xsize) :
    ∀ (n : Nat), n ≤ 28 → ∀ (qi : Nat) (r : List Nat) (v : Nat), Holds (xsize + 1) r v →
      v < bpBigintBase ^ xsize → 2 ^ n ∣ qi → v < bpBigintBase ^ i * (ubigVal y * 2 ^ n) →
      ∃ d v', d < 2 ^ n ∧ (divBits xsize y i n qi r).1 = qi + d ∧ Holds (xsize + 1) (divBits xsize y i n qi r).2 v' ∧
        v = d * (bpBigintBase ^ i * ubigVal y) + v' ∧ v' < bpBigintBase ^ i * ubigVal y := by
  intro n
  induction n with
  | zero =>
    intro _ qi r v hr _ _ hlt
    exact ⟨0, v, by simp, by simp [divBits], by simpa [divBits] using hr, by simp, by simpa using hlt⟩
  | succ n ih =>
    intro hn qi r v hr hv hq hlt
    have hq' : 2 ^ n ∣ qi := dvd_trans (pow_dvd_pow 2 (Nat.le_succ n)) hq
    have hdbl : bpBigintBase ^ i * (ubigVal y * 2 ^ (n + 1)) =
        bpBigintBase ^ i * (ubigVal y * 2 ^ n) + bpBigintBase ^ i * (ubigVal y * 2 ^ n) := by
      rw [pow_succ]
      ring
    rcases divTry_spec hy hr hv hi (show n < 28 by omega) with ⟨hle, r', htry, hr'⟩ | ⟨hgt, htry⟩
    · obtain ⟨d, v', hd, hq1, hr1, hv1, hlt1⟩ :=
        ih (by omega) (qi + 2 ^ n) r' _ hr' (by omega) (Nat.dvd_add hq' (dvd_refl _)) (by omega)
      refine ⟨2 ^ n + d, v', by rw [pow_succ]; omega, ?_, ?_, ?_, hlt1⟩
      · simp only [divBits, htry, or_one_shiftLeft hq]
        rw [hq1]
        omega
      · simp only [divBits, htry, or_one_shiftLeft hq]
        exact hr1
      · have hmul : 2 ^ n * (bpBigintBase ^ i * ubigVal y) = bpBigintBase ^ i * (ubigVal y * 2 ^ n) := by ring
        rw [add_mul, hmul]
        omega
    · obtain ⟨d, v', hd, hq1, hr1, hv1, hlt1⟩ := ih (by omega) qi r v hr hv hq' hgt
      refine ⟨d, v', by rw [pow_succ]; omega, ?_, ?_, hv1, hlt1⟩
      · simp only [divBits, htry]
        exact hq1
      · simp only [divBits, htry]
        exact hr1

theorem divBlocks_spec (hy : Valid bpBigintBase y) :
    ∀ (n : Nat), n + y.length ≤ xsize + 1 → ∀ (q r : List Nat) (v : Nat), Holds (xsize + 1) r v →
      v < bpBigintBase ^ xsize → v < bpBigintBase ^ n * ubigVal y →
      ∃ qs v', (divBlocks xsize y n q r).1 = qs ++ q ∧ Valid bpBigintBase qs ∧ qs.length = n ∧
        Holds (xsize + 1) (divBlocks xsize y n q r).2 v' ∧ v = ubigVal qs * ubigVal y + v' ∧ v' < ubigVal y := by
  intro n
  induction n with
  | zero =>
    intro _ q r v hr _ hlt
    exact ⟨[], v, rfl, Valid.nil, rfl, hr, by simp, by simpa using hlt⟩
  | succ n ih =>
    intro hn q r v hr hv hlt
    have hlt' : v < bpBigintBase ^ n * (ubigVal y * 2 ^ 28) := by
      rw [pow_succ] at hlt
      calc v < bpBigintBase ^ n * bpBigintBase * ubigVal y := hlt
        _ = bpBigintBase ^ n * (ubigVal y * bpBigintBase) := by ring
    obtain ⟨d, v1, hd, hq1, hr1, hv1, hlt1⟩ :=
      divBits_spec hy (by omega) 28 (le_refl 28) 0 r v hr hv (dvd_zero _) hlt'
    rw [Nat.zero_add] at hq1
    obtain ⟨qs, v2, hqs, hval, hlen, hr2, hv2, hlt2⟩ :=
      ih (by omega) (d :: q) _ v1 hr1 (by omega) hlt1
    refine ⟨qs ++ [d], v2, ?_, valid_append.2 ⟨hval, valid_cons.2 ⟨hd, Valid.nil⟩⟩, by simp [hlen], ?_, ?_, hlt2⟩
    · simp only [divBlocks, hq1]
      rw [hqs, append_assoc, singleton_append]
    · simp only [divBlocks, hq1]
      exact hr2
    · rw [hv1, hv2]
      simp only [ubigVal, Nat.ofDigits_append, Nat.ofDigits_singleton, hlen]
      ring

end

/-! ## Quotient and remainder -/

theorem isUbig_zapOne_quotient {x y qs : List Nat} {a b : Nat} (hx : IsUbig x a) (hy : IsUbig y b) (hb : b ≠ 0)
    (hl : y.length ≤ x.length) (hqs : Holds (x.length - y.length + 1) qs (a / b)) : IsUbig (zapOne qs) (a / b) := by
  rcases Nat.lt_or_ge a b with hab | hab
  · -- equal lengths and a smaller dividend: the one digit is zero and goes away
    have hlen := hx.length_le hy (le_of_lt hab)
    exact zapOne_short hqs (by omega)
  · apply zapOne_spec hqs
    rw [Nat.le_div_iff_mul_le (by omega)]
    rcases Nat.eq_or_lt_of_le hl with he | hlt
    · rw [he, Nat.sub_self]
      simpa using hab
    · have hne : a ≠ 0 := by omega
      calc bpBigintBase ^ (x.length - y.length + 1 - 2) * b
          ≤ bpBigintBase ^ (x.length - y.length + 1 - 2) * bpBigintBase ^ y.length :=
            Nat.mul_le_mul_left _ (le_of_lt hy.lt_pow)
        _ = bpBigintBase ^ (x.length - 1) := by
            rw [← pow_add]
            congr 1
            omega
        _ ≤ a := hx.pow_le hne

section
variable {x y : List Nat} {b : Nat} (hx : Valid bpBigintBase x) (hy : IsUbig y b) (hb : b ≠ 0)
  (hl : y.length ≤ x.length)
include hx hy hb hl

theorem divBlocks_of_length :
    Holds (x.length - y.length + 1) (divBlocks x.length y (x.length - y.length + 1) [] (x ++ [0])).1 (ubigVal x / b) ∧
      Holds (x.length + 1) (divBlocks x.length y (x.length - y.length + 1) [] (x ++ [0])).2 (ubigVal x % b) := by
  have hyl : 0 < y.length := length_pos_of_ne_nil (fun h => hb (hy.eq_nil_iff.1 h))
  have hxlt := ofDigits_lt_pow one_lt_base hx
  have hr : Holds (x.length + 1) (x ++ [0]) (ubigVal x) :=
    ⟨valid_append.2 ⟨hx, valid_cons.2 ⟨by decide, Valid.nil⟩⟩, by simp, by rw [ubigVal, Nat.ofDigits_append_zero]⟩
  have hlt : ubigVal x < bpBigintBase ^ (x.length - y.length + 1) * ubigVal y := by
    calc ubigVal x < bpBigintBase ^ x.length := hxlt
      _ = bpBigintBase ^ (x.length - y.length + 1) * bpBigintBase ^ (y.length - 1) := by
          rw [← pow_add]
          congr 1
          omega
      _ ≤ bpBigintBase ^ (x.length - y.length + 1) * ubigVal y :=
          Nat.mul_le_mul_left _ (by rw [hy.val_eq]; exact hy.pow_le hb)
  obtain ⟨qs, v, hqs, hval, hlen, hr', hv, hvlt⟩ :=
    divBlocks_spec hy.valid (x.length - y.length + 1) (by omega) [] (x ++ [0]) _ hr hxlt hlt
  rw [hy.val_eq] at hv hvlt
  rw [append_nil] at hqs
  have hq : ubigVal x / b = ubigVal qs := by
    rw [hv, Nat.mul_comm, Nat.mul_add_div (by omega), Nat.div_eq_of_lt hvlt, Nat.add_zero]
  have hm : ubigVal x % b = v := by
    rw [hv, Nat.mul_comm, Nat.mul_add_mod, Nat.mod_eq_of_lt hvlt]
  rw [hqs, hm]
  exact ⟨⟨hval, hlen, hq.symm⟩, hr'⟩

theorem isUbig_divRemainder : IsUbig (bpDivUbigUbig x y).2 (ubigVal x % b) := by
  have hr := (divBlocks_of_length hx hy hb hl).2
  rw [← hr.val_eq]
  exact isUbig_zapLeadingZeros hr.valid

end

section
variable {x y : List Nat} {a b : Nat} (hx : IsUbig x a) (hy : IsUbig y b) (hb : b ≠ 0)
include hx hy hb

theorem bpDivUbigUbig_of_length (hl : y.length ≤ x.length) :
    IsUbig (bpDivUbigUbig x y).1 (a / b) ∧ IsUbig (bpDivUbigUbig x y).2 (a % b) := by
  have hq := (divBlocks_of_length hx.valid hy hb hl).1
  have hr := isUbig_divRemainder hx.valid hy hb hl
  rw [hx.val_eq] at hq hr
  exact ⟨isUbig_zapOne_quotient hx hy hb hl hq, hr⟩

theorem bpDivUbigUbig_spec
    (hab : b ≤ a) : IsUbig (bpDivUbigUbig x y).1 (a / b) ∧ IsUbig (bpDivUbigUbig x y).2 (a % b) :=
  bpDivUbigUbig_of_length hx hy hb (hy.length_le hx hab)

end

theorem bpDivUbigUbig_nil {x : List Nat} {a : Nat} (hx : IsUbig x a) : IsUbig (bpDivUbigUbig x []).2 a := by
  have hbits : ∀ i ≤ x.length, ∀ n ≤ 28, ∀ (qi : Nat) (r : List Nat), Holds (x.length + 1) r a →
      Holds (x.length + 1) (divBits x.length [] i n qi r).2 a := by
    intro i hi n
    induction n with
    | zero => exact fun _ _ _ hr => hr
    | succ n ih =>
      intro hn qi r hr
      rcases divTry_spec Valid.nil hr hx.lt_pow (i := i) (by simpa using hi) (show n < 28 by omega) with
        ⟨_, r', htry, hr'⟩ | ⟨hlt, _⟩
      · rw [ubigVal, Nat.ofDigits_nil, zero_mul, mul_zero, Nat.sub_zero] at hr'
        simp only [divBits, htry]
        exact ih (by omega) _ _ hr'
      · simp [ubigVal] at hlt
  have hblocks : ∀ n ≤ x.length + 1, ∀ (q r : List Nat), Holds (x.length + 1) r a →
      Holds (x.length + 1) (divBlocks x.length [] n q r).2 a := by
    intro n
    induction n with
    | zero => exact fun _ _ _ hr => hr
    | succ n ih =>
      intro hn q r hr
      exact ih (by omega) _ _ (hbits n (by omega) 28 (le_refl 28) 0 r hr)
  have hr := hblocks (x.length - 0 + 1) (by omega) [] (x ++ [0])
    ⟨valid_append.2 ⟨hx.valid, valid_cons.2 ⟨by decide, Valid.nil⟩⟩, by simp,
      by rw [ubigVal, Nat.ofDigits_append_zero]; exact hx.val_eq⟩
  rw [← hr.val_eq]
  exact isUbig_zapLeadingZeros hr.valid

/-- Quotient and remainder of two magnitudes: exact, of valid digits and normalized. -/
theorem bpDivUbigUbig_exact {x y : List Nat} (hx : Valid bpBigintBase x) (hxs : Stripped x)
    (hy : Valid bpBigintBase y) (hys : Stripped y) (hne : ubigVal y ≠ 0) (hl : y.length ≤ x.length) :
    ubigVal x = ubigVal (bpDivUbigUbig x y).1 * ubigVal y + ubigVal (bpDivUbigUbig x y).2 ∧
      ubigVal (bpDivUbigUbig x y).2 < ubigVal y ∧
      (Valid bpBigintBase (bpDivUbigUbig x y).1 ∧ Valid bpBigintBase (bpDivUbigUbig x y).2) ∧
      Stripped (bpDivUbigUbig x y).1 ∧ Stripped (bpDivUbigUbig x y).2 := by
  obtain ⟨hq, hr⟩ := bpDivUbigUbig_of_length ⟨hx, hxs, rfl⟩ ⟨hy, hys, rfl⟩ hne hl
  refine ⟨?_, ?_, ⟨hq.valid, hr.valid⟩, hq.stripped, hr.stripped⟩
  · rw [hq.val_eq, hr.val_eq]
    exact (Nat.div_add_mod' _ _).symm
  · rw [hr.val_eq]
    exact Nat.mod_lt _ (Nat.pos_of_ne_zero hne)

theorem bpDivUbigUbig_two_digits :
    ubigVal [5, 1] = ubigVal (bpDivUbigUbig [5, 1] [2]).1 * ubigVal [2] + ubigVal (bpDivUbigUbig [5, 1] [2]).2 ∧
      ubigVal (bpDivUbigUbig [5, 1] [2]).2 < ubigVal [2] ∧
      (Valid bpBigintBase (bpDivUbigUbig [5, 1] [2]).1 ∧ Valid bpBigintBase (bpDivUbigUbig [5, 1] [2]).2) ∧
      Stripped (bpDivUbigUbig [5, 1] [2]).1 ∧ Stripped (bpDivUbigUbig [5, 1] [2]).2 :=
  bpDivUbigUbig_exact (by unfold Valid; decide) (by unfold Stripped; decide) (by unfold Valid; decide)
    (by unfold Stripped; decide) (by decide) (by decide)

end Picat
