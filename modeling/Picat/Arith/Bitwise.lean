import Picat.Arith.Div

/-!
# Bitwise operators

`/\`, `\/`, `xor` and `~`. A bigint operand is written as a two's complement word of `n` digits, `n` the size of
the longer operand, with the sign bit above the top digit ("the imaginary sign bit"); the words are combined
digit by digit and the result is converted back.

* `AndLost`, `XorLost` : the operands for which the result is that integer; `bpBitwise_iff` : the four operators
  are right exactly outside them.
-/

namespace Picat
open Digits TwosComplement List

/-! ## Words of digits -/

/-- `(~d) & MASK_LOW28`. -/
def complementDigit (d : Nat) : Nat := Nat.ldiff maskLow28 d

def bpOnescomplementUbig (x : List Nat) : List Nat := zapLeadingZeros (x.map complementDigit)

/-- `x[xsize-1] |= BP_BIGINT_BASE`, "the imaginary sign bit". -/
def setSignBit : List Nat → List Nat
  | [] => []
  | [d] => [d ||| bpBigintBase]
  | d :: e :: ds => d :: setSignBit (e :: ds)

def bpTwoscomplementUbig (x : List Nat) : List Nat :=
  setSignBit (carryLoop (x.map complementDigit) 1).1

def bpTwoscomplementMagnitude (z : List Nat) : List Nat :=
  zapLeadingZeros (bpOnescomplementUbig (bpDecUbig z))

def bpCopyUbig (x : List Nat) (ysize : Nat) : List Nat := x ++ List.replicate (ysize - x.length) 0

def bpAndUbigUbig (x y : List Nat) : List Nat := zapLeadingZeros (List.zipWith (· &&& ·) x y)

def bpOrUbigUbig (x y : List Nat) : List Nat :=
  let (x, y) := if x.length > y.length then (y, x) else (x, y)
  List.zipWith (· ||| ·) x y ++ y.drop x.length

def bpXorUbigUbig (x y : List Nat) : List Nat :=
  let (x, y) := if x.length > y.length then (y, x) else (x, y)
  zapLeadingZeros (List.zipWith (· ^^^ ·) x y ++ y.drop x.length)

/-- An operand in `size` digits: `x1` or `y1` of the bitwise functions. -/
def bitwiseOperand (size : Nat) (op : Bigint) : List Nat :=
  let x1 := if op.ds.length < size then bpCopyUbig op.ds size else op.ds
  if op.sign < 0 then bpTwoscomplementUbig x1 else x1

def bitwiseResult (z : List Nat) : Term :=
  if z.length = 0 then .int 0
  else if z.length = 1 then makeint (z.getD 0 0)
  else if z.getLastD 0 ≥ bpBigintBase then
    let z := bpTwoscomplementMagnitude z
    if z.length = 0 then .int 0 else makeNumber (-1) z
  else makeNumber 1 z

def bpAndBigintBigint (op1 op2 : Bigint) : Term :=
  let size := max op1.ds.length op2.ds.length
  bitwiseResult (bpAndUbigUbig (bitwiseOperand size op1) (bitwiseOperand size op2))

def bpOrBigintBigint (op1 op2 : Bigint) : Term :=
  let size := max op1.ds.length op2.ds.length
  bitwiseResult (bpOrUbigUbig (bitwiseOperand size op1) (bitwiseOperand size op2))

def bpXorBigintBigint (op1 op2 : Bigint) : Term :=
  let size := max op1.ds.length op2.ds.length
  bitwiseResult (bpXorUbigUbig (bitwiseOperand size op1) (bitwiseOperand size op2))

/-! ## Operands -/

theorem base_pow (n : Nat) : bpBigintBase ^ n = 2 ^ (28 * n) := by
  rw [bpBigintBase, ← pow_mul]

theorem complementDigit_eq (d : Nat) : complementDigit d = bpBigintBase - 1 - d % bpBigintBase := by
  apply Nat.eq_of_testBit_eq
  intro i
  have hlt : d % 2 ^ 28 < 2 ^ 28 := Nat.mod_lt _ (by decide)
  rw [complementDigit, Nat.testBit_ldiff, maskLow28, Nat.testBit_two_pow_sub_one, bpBigintBase,
    show 2 ^ 28 - 1 - d % 2 ^ 28 = 2 ^ 28 - (d % 2 ^ 28 + 1) by omega, Nat.testBit_two_pow_sub_succ hlt,
    Nat.testBit_mod_two_pow]
  by_cases h : i < 28 <;> simp [h]

variable {x : List Nat} {d : Nat} {f : Bool → Bool → Bool}

theorem map_complementDigit {x : List Nat} (hx : Valid bpBigintBase x) :
    x.map complementDigit = x.map (bpBigintBase - 1 - ·) := by
  apply map_congr_left
  intro d hd
  rw [complementDigit_eq, Nat.mod_eq_of_lt (hx d hd)]

theorem setSignBit_append (x : List Nat) (d : Nat) : setSignBit (x ++ [d]) = x ++ [d ||| bpBigintBase] := by
  induction x with
  | nil => rfl
  | cons a x ih =>
    cases x with
    | nil => rfl
    | cons b x => exact congrArg (a :: ·) ih

/-- `z` has `n` digits, the top one with the sign bit, that together are the word of `v`. -/
structure IsWord (n : Nat) (z : List Nat) (v : Int) : Prop where
  length : z.length = n
  wide : WideTop bpBigintBase z
  val_eq : ubigVal z = word (28 * n) v

theorem wideTop_of_valid (hx : Valid bpBigintBase x) : WideTop bpBigintBase x :=
  hx.initial ( dropLast_prefix x)

theorem isWord_setSignBit {z : List Nat} {n : Nat} {v : Int} (hz : Valid bpBigintBase z) (hl : z.length = n)
    (hn : 0 < n) (hv : (ubigVal z : Int) = bpBigintBase ^ n + v) : IsWord n (setSignBit z) v := by
  obtain ⟨y, d, rfl⟩ : ∃ y d, z = y ++ [d] := by
    refine ⟨z.dropLast, z.getLast ?_, (dropLast_append_getLast _).symm⟩
    rintro rfl
    simp at hl
    omega
  obtain ⟨hy, hd1⟩ := valid_append.1 hz
  have hd : d < bpBigintBase := (valid_cons.1 hd1).1
  have hor : d ||| bpBigintBase = d + bpBigintBase := by
    have := Nat.two_pow_add_eq_or_of_lt (i := 28) hd 1
    rw [Nat.lor_comm, Nat.add_comm]
    simpa [bpBigintBase] using this.symm
  have hyl : y.length + 1 = n := by simpa using hl
  have hlt := ofDigits_lt_pow one_lt_base hz
  rw [hl] at hlt
  have hp : bpBigintBase ^ n = bpBigintBase ^ y.length * bpBigintBase := by rw [← hyl, pow_succ]
  have hpc : ((bpBigintBase ^ n : Nat) : Int) = 2 ^ (28 * n) := by rw [base_pow]; push_cast; rfl
  rw [← Nat.cast_pow] at hv
  have hw := word_of_neg (w := 28 * n) (x := v) (by simp only [ubigVal] at hv; omega) (by rw [← hpc]; omega)
  rw [pow_succ, ← hpc] at hw
  rw [setSignBit_append, hor]
  refine ⟨by simp [hyl], ?_, ?_⟩
  · rw [WideTop, dropLast_concat]
    exact hy
  · rw [ubigVal, Nat.ofDigits_append, Nat.ofDigits_singleton] at hv ⊢
    rw [mul_add, ← hp]
    omega

theorem bpTwoscomplementUbig_spec {n : Nat} (hx : Valid bpBigintBase x) (hl : x.length = n)
    (h0 : ubigVal x ≠ 0) : IsWord n (bpTwoscomplementUbig x) (-ubigVal x) := by
  obtain ⟨ho, hv⟩ := carryLoop_spec (x.map (bpBigintBase - 1 - ·)) 1 (valid_complement (by decide) x) (le_refl 1)
  have hc := ofDigits_complement hx
  have hlt := ofDigits_lt_pow one_lt_base hx
  unfold bpTwoscomplementUbig
  rw [map_complementDigit hx]
  set s := carryLoop (x.map (bpBigintBase - 1 - ·)) 1
  rw [length_map, hl] at hv
  rw [hl] at hc hlt
  have hs : s.2 = 0 := by
    rcases Nat.le_one_iff_eq_zero_or_eq_one.1 ho.bit with h | h
    · exact h
    · rw [h] at hv
      simp only [ubigVal] at hv h0
      omega
  have hlen := ho.length
  rw [length_map, hl] at hlen
  have hn : 0 < n := by
    rw [← hl]
    exact length_pos_of_ne_nil (fun h => h0 (by rw [h]; rfl))
  apply isWord_setSignBit ho.valid hlen hn
  rw [hs] at hv
  rw [← Nat.cast_pow]
  simp only [ubigVal] at hv ⊢
  omega

theorem isWord_operand {op : Bigint} {v : Int} {n : Nat} (h : IsBigint op v) (hl : op.ds.length ≤ n) :
    IsWord n (bitwiseOperand n op) v := by
  have hval := h.val_eq
  obtain ⟨x1, hx1, hx1v, hx1l, hx1u⟩ : ∃ x1, (if op.ds.length < n then bpCopyUbig op.ds n else op.ds) = x1 ∧
      Valid bpBigintBase x1 ∧ x1.length = n ∧ ubigVal x1 = v.natAbs := by
    split_ifs with hlt
    · refine ⟨_, rfl, valid_append.2 ⟨h.ubig.valid, Valid.replicate_zero (by decide) _⟩, ?_, ?_⟩
      · rw [bpCopyUbig, length_append, length_replicate]
        omega
      · rw [ubigVal, bpCopyUbig, Nat.ofDigits_append_replicate_zero]
        exact h.ubig.val_eq
    · exact ⟨_, rfl, h.ubig.valid, by omega, h.ubig.val_eq⟩
  have hlt := ofDigits_lt_pow one_lt_base hx1v
  rw [hx1l] at hlt
  simp only [bitwiseOperand, hx1]
  rcases IsBigint.sign_cases op with hs | hs
  · rw [hs, one_mul] at hval
    rw [hs, if_neg (by omega)]
    have hpc : ((bpBigintBase ^ n : Nat) : Int) = 2 ^ (28 * n) := by rw [base_pow]; push_cast; rfl
    have hw := word_of_nonneg (w := 28 * n) (x := v) (by omega)
      (by rw [← hpc]; simp only [ubigVal] at hx1u; omega)
    exact ⟨hx1l, wideTop_of_valid hx1v, by omega⟩
  · have hne : v.natAbs ≠ 0 := by
      have hsign := h.sign_eq
      rw [hs] at hsign
      split_ifs at hsign
      omega
    rw [hs, neg_one_mul] at hval
    rw [hs, if_pos (by omega)]
    have hw := bpTwoscomplementUbig_spec hx1v hx1l (by rw [hx1u]; exact hne)
    rwa [hx1u, hval] at hw

/-! ## Results -/

theorem wideTop_append : WideTop bpBigintBase (x ++ [d]) ↔ Valid bpBigintBase x := by
  rw [WideTop, dropLast_concat]

theorem borrowLoop_append : ∀ (x y : List Nat) (b : Nat),
    borrowLoop (x ++ y) b = ((borrowLoop x b).1 ++ (borrowLoop y (borrowLoop x b).2).1,
      (borrowLoop y (borrowLoop x b).2).2)
  | [], y, b => by simp [borrowLoop]
  | a :: x, y, b => by
    by_cases h : b = 1
    · simp [borrowLoop, h, borrowLoop_append x y]
    · cases y with
      | nil => simp [borrowLoop, h]
      | cons c y => simp [borrowLoop, h]

/-- The magnitude of a negative word `2 ^ (28 n) + m`: it is `2 ^ (28 n) - m`, but for `m = 0` it is `0`. -/
theorem bpTwoscomplementMagnitude_spec (hx : Valid bpBigintBase x)
    (hd0 : bpBigintBase ≤ d) (hd1 : d < 2 * bpBigintBase) :
    IsUbig (bpTwoscomplementMagnitude (x ++ [d]))
      (if ubigVal (x ++ [d]) = bpBigintBase ^ (x.length + 1) then 0
        else 2 * bpBigintBase ^ (x.length + 1) - ubigVal (x ++ [d])) := by
  obtain ⟨ho, hv⟩ := borrowLoop_spec x 1 hx (le_refl 1)
  have hbit := ho.bit
  have hbase := one_lt_base
  set s := borrowLoop x 1 with hs
  have hlen := ho.length
  -- the decrement takes at most one from the top digit, so it stays nonzero and nothing is zapped
  have htop : borrowLoop [d] s.2 = ([d - s.2], 0) := by
    rcases Nat.le_one_iff_eq_zero_or_eq_one.1 hbit with h | h
    · rw [h]
      rfl
    · rw [h]
      have : ¬ ((d : Int) - 1 < 0) := by omega
      simp only [borrowLoop, computeBorrowVal, if_true, if_neg this]
      rw [show ((d : Int) - 1).toNat = d - 1 by omega]
  have hdec : bpDecUbig (x ++ [d]) = s.1 ++ [d - s.2] := by
    have hne : d - s.2 ≠ 0 := by omega
    rw [bpDecUbig, borrowLoop_append, ← hs, htop]
    exact rdropWhile_concat_neg _ _ _ (by simpa using hne)
  have hcompl : (s.1 ++ [d - s.2]).map complementDigit =
      (s.1 ++ [(d - s.2) % bpBigintBase]).map (bpBigintBase - 1 - ·) := by
    rw [List.map_append, List.map_append, map_complementDigit ho.valid, map_singleton, map_singleton,
      complementDigit_eq]
  have hvalid : Valid bpBigintBase (s.1 ++ [(d - s.2) % bpBigintBase]) :=
    valid_append.2 ⟨ho.valid, valid_cons.2 ⟨Nat.mod_lt _ (by omega), Valid.nil⟩⟩
  have hz := isUbig_zapLeadingZeros (valid_complement (b := bpBigintBase) (by omega)
    (s.1 ++ [(d - s.2) % bpBigintBase]))
  have hzz := isUbig_zapLeadingZeros hz.valid
  rw [hz.val_eq] at hzz
  have hgoal : ubigVal ((s.1 ++ [(d - s.2) % bpBigintBase]).map (bpBigintBase - 1 - ·)) =
      if ubigVal (x ++ [d]) = bpBigintBase ^ (x.length + 1) then 0
        else 2 * bpBigintBase ^ (x.length + 1) - ubigVal (x ++ [d]) := by
    have hc := ofDigits_complement hvalid
    have hxlt := ofDigits_lt_pow one_lt_base hx
    have hzlt := ofDigits_lt_pow one_lt_base ho.valid
    rw [hlen] at hzlt
    have hp : bpBigintBase ^ (x.length + 1) = bpBigintBase ^ x.length * bpBigintBase := pow_succ _ _
    rw [length_append, length_singleton, hlen, Nat.ofDigits_append, Nat.ofDigits_singleton, hlen] at hc
    rw [ubigVal, ubigVal, Nat.ofDigits_append, Nat.ofDigits_singleton]
    simp only [ubigVal] at hv
    obtain ⟨e, rfl⟩ : ∃ e, d = bpBigintBase + e := ⟨d - bpBigintBase, by omega⟩
    rw [mul_add, ← hp]
    rcases Nat.le_one_iff_eq_zero_or_eq_one.1 hbit with h | h
    · rw [h, Nat.sub_zero, Nat.add_mod_left, Nat.mod_eq_of_lt (by omega)] at hc
      rw [h] at hv ⊢
      rw [if_neg (by omega)]
      simp only [Nat.sub_zero, Nat.add_mod_left, Nat.mod_eq_of_lt (show e < bpBigintBase by omega)]
      omega
    · rw [h] at hv hc ⊢
      cases e with
      | zero =>
        simp only [Nat.add_zero, Nat.mod_eq_of_lt (show bpBigintBase - 1 < bpBigintBase by omega),
          Nat.mul_sub, mul_one, ← hp] at hc ⊢
        rw [if_pos (by omega)]
        omega
      | succ e =>
        have hmod : (bpBigintBase + (e + 1) - 1) % bpBigintBase = e := by
          rw [show bpBigintBase + (e + 1) - 1 = bpBigintBase + e by omega, Nat.add_mod_left,
            Nat.mod_eq_of_lt (by omega)]
        rw [hmod] at hc ⊢
        rw [mul_add, mul_one, if_neg (by omega)]
        omega
  rw [bpTwoscomplementMagnitude, bpOnescomplementUbig, hdec, hcompl]
  rw [hgoal] at hzz
  exact hzz

section
variable {z : List Nat} {n : Nat}

theorem split_word (hn : 0 < n) (hl : z.length = n) (hw : WideTop bpBigintBase z)
    (hlt : ubigVal z < 2 * bpBigintBase ^ n) : ∃ x d, z = x ++ [d] ∧ x.length + 1 = n ∧ Valid bpBigintBase x ∧
      d < 2 * bpBigintBase ∧ (bpBigintBase ≤ d ↔ bpBigintBase ^ n ≤ ubigVal z) := by
  have hne : z ≠ [] := by
    rintro rfl
    simp at hl
    omega
  obtain ⟨x, d, rfl⟩ : ∃ x d, z = x ++ [d] :=
    ⟨z.dropLast, z.getLast hne, (dropLast_append_getLast hne).symm⟩
  have hx := wideTop_append.1 hw
  have hxl : x.length + 1 = n := by simpa using hl
  have hxlt := ofDigits_lt_pow one_lt_base hx
  have hp : bpBigintBase ^ n = bpBigintBase ^ x.length * bpBigintBase := by rw [← hxl, pow_succ]
  rw [ubigVal, Nat.ofDigits_append, Nat.ofDigits_singleton] at hlt ⊢
  refine ⟨x, d, rfl, hxl, hx, ?_, ?_⟩
  · by_contra hc
    have := Nat.mul_le_mul_left (bpBigintBase ^ x.length) (Nat.le_of_not_lt hc)
    rw [mul_left_comm, ← hp] at this
    omega
  · constructor
    · intro h
      have := Nat.mul_le_mul_left (bpBigintBase ^ x.length) h
      omega
    · intro h
      by_contra hc
      have := Nat.mul_le_mul_left (bpBigintBase ^ x.length) (show d + 1 ≤ bpBigintBase by omega)
      rw [mul_add, ← hp] at this
      omega

theorem bitwiseResult_negative (h3 : 3 ≤ x.length + 1) (hd : bpBigintBase ≤ d) :
    bitwiseResult (zapLeadingZeros (x ++ [d])) = if (bpTwoscomplementMagnitude (x ++ [d])).length = 0 then .int 0
      else makeNumber (-1) (bpTwoscomplementMagnitude (x ++ [d])) := by
  have hb := one_lt_base
  have hzap : zapLeadingZeros (x ++ [d]) = x ++ [d] :=
    rdropWhile_concat_neg _ _ _ (by simpa using show d ≠ 0 by omega)
  have hl : (x ++ [d]).length = x.length + 1 := by simp
  simp only [hzap, bitwiseResult, hl]
  rw [if_neg (by omega), if_neg (by omega), getLastD_concat, if_pos hd]

section
variable (hn : 3 ≤ n) (hl : z.length = n) (hw : WideTop bpBigintBase z)
include hn hl hw

theorem bitwiseResult_denotes (hlt : ubigVal z < 2 ^ (28 * n + 1)) (hne : ubigVal z ≠ 2 ^ (28 * n)) :
    Denotes (bitwiseResult (zapLeadingZeros z)) (signed (28 * n) (ubigVal z)) := by
  have hpow : 2 ^ (28 * n + 1) = 2 * bpBigintBase ^ n := by rw [base_pow, pow_succ, mul_comm]
  have hcast : (2 : Int) ^ (28 * n + 1) = ((2 * bpBigintBase ^ n : Nat) : Int) := by
    rw [← hpow]
    push_cast
    rfl
  unfold signed
  rw [hcast]
  rw [hpow] at hlt
  rw [← base_pow] at hne ⊢
  obtain ⟨x, d, rfl, hxl, hx, hd, hdiff⟩ := split_word (by omega) hl hw hlt
  by_cases hs : bpBigintBase ≤ d
  · have hm := bpTwoscomplementMagnitude_spec hx hs hd
    rw [hxl, if_neg hne] at hm
    have hnil : (bpTwoscomplementMagnitude (x ++ [d])).length ≠ 0 := by
      intro h0
      have := hm.eq_nil_iff.1 (length_eq_zero_iff.1 h0)
      omega
    have := hdiff.1 hs
    have hden := makeNumber_denotes hm (.inr rfl) (by omega)
    rw [bitwiseResult_negative (by omega) hs, if_neg hnil, if_neg (by omega)]
    rwa [show -1 * ((2 * bpBigintBase ^ n - ubigVal (x ++ [d]) : Nat) : Int) =
      (ubigVal (x ++ [d]) : Int) - ((2 * bpBigintBase ^ n : Nat) : Int) by omega] at hden
  · have hvalid : Valid bpBigintBase (x ++ [d]) := valid_append.2 ⟨hx, valid_cons.2 ⟨by omega, Valid.nil⟩⟩
    have hz := isUbig_zapLeadingZeros hvalid
    have hlow : ubigVal (x ++ [d]) < bpBigintBase ^ n := by
      by_contra hc
      exact hs (hdiff.2 (by omega))
    rw [if_pos hlow]
    by_cases h0 : ubigVal (x ++ [d]) = 0
    · rw [hz.eq_nil_iff.2 h0, h0]
      exact denotes_zero
    · have hden := makeNumber_denotes hz (.inl rfl) h0
      rw [one_mul] at hden
      have hzne : zapLeadingZeros (x ++ [d]) ≠ [] := fun h => h0 (hz.eq_nil_iff.1 h)
      have hlast : ¬ (zapLeadingZeros (x ++ [d])).getLastD 0 ≥ bpBigintBase := by
        have hmem := hz.valid _ (getLast_mem hzne)
        rw [getLastD_eq_getLast?, List.getLast?_eq_getLast_of_ne_nil hzne]
        simpa using hmem
      unfold bitwiseResult
      rw [if_neg (by rw [length_eq_zero_iff]; exact hzne), if_neg hlast]
      split_ifs with h1
      · unfold makeNumber at hden
        rwa [if_pos h1, one_mul] at hden
      · exact hden

theorem bitwiseResult_lost (h : ubigVal z = 2 ^ (28 * n)) : bitwiseResult (zapLeadingZeros z) = .int 0 := by
  have hpos : 0 < bpBigintBase ^ n := Nat.pow_pos (by decide)
  rw [← base_pow] at h
  obtain ⟨x, d, rfl, hxl, hx, hd, hdiff⟩ := split_word (by omega) hl hw (by omega)
  have hs := hdiff.2 (le_of_eq h.symm)
  have hm := bpTwoscomplementMagnitude_spec hx hs hd
  rw [hxl, if_pos h] at hm
  rw [bitwiseResult_negative (by omega) hs, if_pos (by rw [hm.eq_nil_iff.2 rfl]; rfl)]

end

end

/-! ## The three functions on bigints -/

section
variable {op1 op2 : Bigint} {v w : Int} {n : Nat}

theorem isWord_zipWith (hf : f false false = false) {y : List Nat} (hx : IsWord n x v)
    (hy : IsWord n y w) : (List.zipWith (Nat.bitwise f) x y).length = n ∧
      WideTop bpBigintBase (List.zipWith (Nat.bitwise f) x y) ∧
      ubigVal (List.zipWith (Nat.bitwise f) x y) = Nat.bitwise f (word (28 * n) v) (word (28 * n) w) := by
  refine ⟨by rw [length_zipWith, hx.length, hy.length, Nat.min_self], ?_, ?_⟩
  · intro d hd
    obtain ⟨i, hi, rfl⟩ := getElem_of_mem hd
    have hlen : (List.zipWith (Nat.bitwise f) x y).length = n := by
      rw [length_zipWith, hx.length, hy.length, Nat.min_self]
    have hxl := hx.length
    have hyl := hy.length
    rw [length_dropLast, hlen] at hi
    have hxi := hx.wide _ (getElem_mem (l := x.dropLast) (n := i) (by rw [length_dropLast]; omega))
    have hyi := hy.wide _ (getElem_mem (l := y.dropLast) (n := i) (by rw [length_dropLast]; omega))
    rw [getElem_dropLast] at hxi hyi ⊢
    rw [getElem_zipWith]
    exact Nat.bitwise_lt_two_pow hxi hyi
  · have h := ofDigits_zipWith_bitwise hf x y (hx.length.trans hy.length.symm) hx.wide hy.wide
    rw [← hx.val_eq, ← hy.val_eq]
    exact h

theorem abs_lt_pow (h : IsBigint op1 v) (hl : op1.ds.length ≤ n) : v.natAbs < 2 ^ (28 * n) := by
  rw [← base_pow]
  exact lt_of_lt_of_le h.ubig.lt_pow (Nat.pow_le_pow_right (by decide) hl)

theorem word_eq (h : v.natAbs < 2 ^ (28 * n)) :
    word (28 * n) v = if v < 0 then 2 ^ (28 * n) + (2 ^ (28 * n) - v.natAbs) else v.natAbs := by
  have hc : ((2 ^ (28 * n) : Nat) : Int) = 2 ^ (28 * n) := by push_cast; rfl
  have hp : (2 : Int) ^ (28 * n + 1) = 2 ^ (28 * n) * 2 := pow_succ 2 _
  split_ifs with h0
  · have := word_of_neg h0 (show -2 ^ (28 * n) ≤ v by omega)
    omega
  · have := word_of_nonneg (show 0 ≤ v by omega) (show v < 2 ^ (28 * n) by omega)
    omega

theorem bitwiseResult_isBitwise (hf : f false false = false) (hn : 3 ≤ n) {y : List Nat}
    (hx : IsWord n x v) (hy : IsWord n y w) (hv : v.natAbs < 2 ^ (28 * n)) (hw : w.natAbs < 2 ^ (28 * n))
    (hne : Nat.bitwise f (word (28 * n) v) (word (28 * n) w) ≠ 2 ^ (28 * n)) :
    ∃ r, Denotes (bitwiseResult (zapLeadingZeros (List.zipWith (Nat.bitwise f) x y))) r ∧ IsBitwise f v w r := by
  have hc : ((2 ^ (28 * n) : Nat) : Int) = 2 ^ (28 * n) := by push_cast; rfl
  obtain ⟨hl, hwide, hval⟩ := isWord_zipWith hf hx hy
  have hden := bitwiseResult_denotes hn hl hwide
    (by rw [hval]; exact Nat.bitwise_lt_two_pow (word_lt _ v) (word_lt _ w)) (by rw [hval]; exact hne)
  rw [hval] at hden
  exact ⟨_, hden, isBitwise_signed hf (by omega) (by omega) (by omega) (by omega)⟩

/-- The words of two negative numbers have only the sign bit in common. -/
def AndWordLost (n : Nat) (v w : Int) : Prop :=
  v < 0 ∧ w < 0 ∧ (2 ^ (28 * n) - v.natAbs) &&& (2 ^ (28 * n) - w.natAbs) = 0

/-- The words of a negative and a non-negative number differ in the sign bit only. -/
def XorWordLost (n : Nat) (v w : Int) : Prop := ¬ (v < 0 ↔ w < 0) ∧ v.natAbs + w.natAbs = 2 ^ (28 * n)

section
variable (hv : v.natAbs < 2 ^ (28 * n)) (hw : w.natAbs < 2 ^ (28 * n))
include hv hw

theorem and_word_eq_iff : word (28 * n) v &&& word (28 * n) w = 2 ^ (28 * n) ↔ AndWordLost n v w := by
  unfold AndWordLost
  rw [word_eq hv, word_eq hw]
  by_cases h1 : v < 0
  · by_cases h2 : w < 0
    · rw [if_pos h1, if_pos h2, and_sign_sign (by omega) (by omega)]
      constructor
      · intro h
        exact ⟨h1, h2, by omega⟩
      · intro hp
        obtain ⟨_, _, h⟩ := hp
        omega
    · rw [if_neg h2]
      have hle : ∀ a, a &&& w.natAbs ≤ w.natAbs := fun a => Nat.and_le_right
      constructor
      · intro h
        have := hle (if v < 0 then 2 ^ (28 * n) + (2 ^ (28 * n) - v.natAbs) else v.natAbs)
        omega
      · intro hp
        obtain ⟨_, h, _⟩ := hp
        exact absurd h h2
  · rw [if_neg h1]
    have hle : ∀ a, v.natAbs &&& a ≤ v.natAbs := fun a => Nat.and_le_left
    constructor
    · intro h
      have := hle (if w < 0 then 2 ^ (28 * n) + (2 ^ (28 * n) - w.natAbs) else w.natAbs)
      omega
    · intro hp
      obtain ⟨h, _⟩ := hp
      exact absurd h h1

theorem or_word_ne : word (28 * n) v ||| word (28 * n) w ≠ 2 ^ (28 * n) := by
  have h1 : word (28 * n) v ≤ word (28 * n) v ||| word (28 * n) w := Nat.left_le_or
  have h2 : word (28 * n) w ≤ word (28 * n) v ||| word (28 * n) w := Nat.right_le_or
  have hlt : 0 ≤ v → 0 ≤ w → word (28 * n) v ||| word (28 * n) w < 2 ^ (28 * n) := by
    intro hv0 hw0
    rw [word_eq hv, word_eq hw, if_neg (by omega), if_neg (by omega)]
    exact Nat.or_lt_two_pow hv hw
  intro h
  rw [h] at h1 h2 hlt
  rw [word_eq hv] at h1
  rw [word_eq hw] at h2
  split_ifs at h1 h2 <;> omega

theorem xor_word_eq_iff : word (28 * n) v ^^^ word (28 * n) w = 2 ^ (28 * n) ↔ XorWordLost n v w := by
  unfold XorWordLost
  have hzero : ∀ a b : Nat, 2 ^ (28 * n) + (a ^^^ b) = 2 ^ (28 * n) ↔ a = b := by
    intro a b
    have h : a ^^^ b = 0 ↔ a = b := Nat.xor_eq_zero_iff
    rw [← h]
    omega
  rw [word_eq hv, word_eq hw]
  by_cases h1 : v < 0 <;> by_cases h2 : w < 0 <;> simp only [h1, h2, if_true, if_false]
  · have := Nat.xor_lt_two_pow (show 2 ^ (28 * n) - v.natAbs < 2 ^ (28 * n) by omega)
      (show 2 ^ (28 * n) - w.natAbs < 2 ^ (28 * n) by omega)
    rw [xor_sign_sign (by omega) (by omega)]
    simp only [not_true_eq_false, false_and, iff_false]
    omega
  · rw [xor_sign_left (by omega) (by omega), hzero]
    simp only [iff_false, not_true_eq_false, not_false_eq_true, true_and]
    omega
  · rw [Nat.xor_comm, xor_sign_left (by omega) (by omega), hzero]
    simp only [iff_true, not_false_eq_true, true_and]
    omega
  · have := Nat.xor_lt_two_pow hv hw
    simp only [not_true_eq_false, false_and, iff_false]
    omega

end

end

section
variable {op1 op2 : Bigint} {v w : Int}

theorem operands_spec (h1 : IsBigint op1 v) (h2 : IsBigint op2 w) :
    IsWord (max op1.ds.length op2.ds.length) (bitwiseOperand (max op1.ds.length op2.ds.length) op1) v ∧
      IsWord (max op1.ds.length op2.ds.length) (bitwiseOperand (max op1.ds.length op2.ds.length) op2) w ∧
      v.natAbs < 2 ^ (28 * max op1.ds.length op2.ds.length) ∧ w.natAbs < 2 ^ (28 * max op1.ds.length op2.ds.length) :=
  ⟨isWord_operand h1 (le_max_left _ _), isWord_operand h2 (le_max_right _ _), abs_lt_pow h1 (le_max_left _ _),
    abs_lt_pow h2 (le_max_right _ _)⟩

section
variable (h1 : IsBigint op1 v) (h2 : IsBigint op2 w) (hn : 3 ≤ max op1.ds.length op2.ds.length)
include h1 h2 hn

theorem bpAndBigintBigint_spec :
    (AndWordLost (max op1.ds.length op2.ds.length) v w → bpAndBigintBigint op1 op2 = .int 0) ∧
      (¬ AndWordLost (max op1.ds.length op2.ds.length) v w →
        ∃ r, Denotes (bpAndBigintBigint op1 op2) r ∧ IsBitwise and v w r) := by
  obtain ⟨hx, hy, hv, hw⟩ := operands_spec h1 h2
  constructor
  · intro hlost
    obtain ⟨hl, hwide, hval⟩ := isWord_zipWith (f := and) rfl hx hy
    exact bitwiseResult_lost hn hl hwide (hval.trans ((and_word_eq_iff hv hw).2 hlost))
  · intro hok
    exact bitwiseResult_isBitwise rfl hn hx hy hv hw (fun h => hok ((and_word_eq_iff hv hw).1 h))

theorem bpXorBigintBigint_spec :
    (XorWordLost (max op1.ds.length op2.ds.length) v w → bpXorBigintBigint op1 op2 = .int 0) ∧
      (¬ XorWordLost (max op1.ds.length op2.ds.length) v w →
        ∃ r, Denotes (bpXorBigintBigint op1 op2) r ∧ IsBitwise xor v w r) := by
  obtain ⟨hx, hy, hv, hw⟩ := operands_spec h1 h2
  have hxy := hx.length.trans hy.length.symm
  have hz : bpXorUbigUbig (bitwiseOperand (max op1.ds.length op2.ds.length) op1)
      (bitwiseOperand (max op1.ds.length op2.ds.length) op2) =
      zapLeadingZeros (List.zipWith (Nat.bitwise xor) (bitwiseOperand (max op1.ds.length op2.ds.length) op1)
        (bitwiseOperand (max op1.ds.length op2.ds.length) op2)) := by
    rw [bpXorUbigUbig, if_neg (by omega)]
    dsimp only
    rw [hxy, drop_length, append_nil]
    rfl
  simp only [bpXorBigintBigint, hz]
  constructor
  · intro hlost
    obtain ⟨hl, hwide, hval⟩ := isWord_zipWith (f := xor) rfl hx hy
    exact bitwiseResult_lost hn hl hwide (hval.trans ((xor_word_eq_iff hv hw).2 hlost))
  · intro hok
    exact bitwiseResult_isBitwise rfl hn hx hy hv hw (fun h => hok ((xor_word_eq_iff hv hw).1 h))

end

theorem pow_le_word (h1 : IsBigint op1 v) (hne : v ≠ 0) :
    bpBigintBase ^ (op1.ds.length - 1) ≤ word (28 * op1.ds.length) v := by
  have hlow := h1.ubig.pow_le (show v.natAbs ≠ 0 by omega)
  have hle : bpBigintBase ^ (op1.ds.length - 1) ≤ bpBigintBase ^ op1.ds.length :=
    Nat.pow_le_pow_right (by decide) (by omega)
  rw [word_eq (abs_lt_pow h1 (le_refl _)), ← base_pow]
  split_ifs <;> omega

theorem bpOrBigintBigint_spec (h1 : IsBigint op1 v) (h2 : IsBigint op2 w)
    (hn : 3 ≤ max op1.ds.length op2.ds.length) :
    ∃ r, Denotes (bpOrBigintBigint op1 op2) r ∧ IsBitwise or v w r := by
  obtain ⟨hx, hy, hv, hw⟩ := operands_spec h1 h2
  have hxy := hx.length.trans hy.length.symm
  obtain ⟨hl, hwide, hval⟩ := isWord_zipWith (f := or) rfl hx hy
  have hres := bitwiseResult_isBitwise (f := or) rfl hn hx hy hv hw (or_word_ne hv hw)
  -- the top digit of the longer operand is not zero, so there is nothing that should have been zapped
  have hbig : bpBigintBase ^ (max op1.ds.length op2.ds.length - 1) ≤
      word (28 * max op1.ds.length op2.ds.length) v ||| word (28 * max op1.ds.length op2.ds.length) w := by
    have hne : ∀ {op : Bigint} {u : Int}, IsBigint op u → 3 ≤ op.ds.length → u ≠ 0 := by
      rintro op u h h3 rfl
      rw [h.ubig.eq_nil_iff.2 rfl] at h3
      simp at h3
    rcases le_total op1.ds.length op2.ds.length with h | h
    · rw [max_eq_right h] at hn ⊢
      exact le_trans (pow_le_word h2 (hne h2 hn)) Nat.right_le_or
    · rw [max_eq_left h] at hn ⊢
      exact le_trans (pow_le_word h1 (hne h1 hn)) Nat.left_le_or
  set n := max op1.ds.length op2.ds.length
  set z := List.zipWith (Nat.bitwise or) (bitwiseOperand n op1) (bitwiseOperand n op2)
  have hzap : zapLeadingZeros z = z := by
    refine rdropWhile_eq_self_iff.2 (fun hnil => ?_)
    intro h0
    have hlast : z = z.dropLast ++ [0] := by
      conv_lhs => rw [← dropLast_append_getLast hnil, beq_iff_eq.1 h0]
    have hlt := ofDigits_lt_pow one_lt_base (show Valid bpBigintBase z.dropLast from hwide)
    rw [← Nat.ofDigits_append_zero, ← hlast, length_dropLast, hl] at hlt
    have hval' : Nat.ofDigits bpBigintBase z = word (28 * n) v ||| word (28 * n) w := hval
    omega
  have hz : bpOrUbigUbig (bitwiseOperand n op1) (bitwiseOperand n op2) = z := by
    rw [bpOrUbigUbig, if_neg (by omega)]
    dsimp only
    rw [hxy, drop_length, append_nil]
    rfl
  rw [hzap] at hres
  rw [bpOrBigintBigint, hz]
  exact hres

end

/-! ## The operators -/

/-- `(BP_IN_1W_INT_RANGE(op)) ? MAKEINT(op) : bp_int_to_bigint(op)`. -/
def wordTerm (op : Int) : Term := if bpIn1WIntRange op then makeint op else .bigint (bpIntToBigint op)

def bpBitwiseAnd : Term → Term → Term
  | .int op1, .int op2 => wordTerm (BitVec.ofInt 64 op1 &&& BitVec.ofInt 64 op2).toInt
  | .int op1, .bigint op2 => bpAndBigintBigint (bpIntToBigint op1) op2
  | .bigint op1, .int op2 => bpAndBigintBigint op1 (bpIntToBigint op2)
  | .bigint op1, .bigint op2 => bpAndBigintBigint op1 op2

def bpBitwiseOr : Term → Term → Term
  | .int op1, .int op2 => wordTerm (BitVec.ofInt 64 op1 ||| BitVec.ofInt 64 op2).toInt
  | .int op1, .bigint op2 => bpOrBigintBigint (bpIntToBigint op1) op2
  | .bigint op1, .int op2 => bpOrBigintBigint op1 (bpIntToBigint op2)
  | .bigint op1, .bigint op2 => bpOrBigintBigint op1 op2

def bpBitwiseXor : Term → Term → Term
  | .int op1, .int op2 => wordTerm (BitVec.ofInt 64 op2 ^^^ BitVec.ofInt 64 op1).toInt
  | .int op1, .bigint op2 => bpXorBigintBigint (bpIntToBigint op1) op2
  | .bigint op1, .int op2 => bpXorBigintBigint op1 (bpIntToBigint op2)
  | .bigint op1, .bigint op2 => bpXorBigintBigint op1 op2

/-- `bp_neg_bigint` of the result of an addition, which has to be a bigint. -/
def negBigintTerm : Term → Except ArithError Term
  | .int _ => .error .outOfBounds
  | .bigint op => .ok (.bigint (bpNegBigint op))

def bpBitwiseComplement : Term → Except ArithError Term
  | .int op1 => .ok (wordTerm (~~~ BitVec.ofInt 64 op1).toInt)
  | .bigint op1 =>
    if op1.sign > 0 then negBigintTerm (bpAddBigintBigint op1 (bpIntToBigint 1))
    else .ok (bpSubBigintBigint (bpNegBigint op1) (bpIntToBigint 1))

/-- The number of base-`2^28` digits of the magnitude. -/
def digitCount (v : Int) : Nat := (intDigits v.natAbs).length

/-- Operands whose `/\` is the negative of a power of the base with as many digits as the longer operand. -/
def AndLost (x y : Int) : Prop :=
  ¬ (bpIn1WIntRange x ∧ bpIn1WIntRange y) ∧ AndWordLost (max (digitCount x) (digitCount y)) x y

/-- The same for `xor`. -/
def XorLost (x y : Int) : Prop :=
  ¬ (bpIn1WIntRange x ∧ bpIn1WIntRange y) ∧ XorWordLost (max (digitCount x) (digitCount y)) x y

theorem IsBigint.length_eq {op : Bigint} {v : Int} (h : IsBigint op v) : op.ds.length = digitCount v := by
  rw [digitCount, h.ubig.ext (isUbig_intDigits v.natAbs)]

def Term.toBigint : Term → Bigint
  | .int v => bpIntToBigint v
  | .bigint op => op

theorem isBigint_toBigint {t : Term} (h : t.Canon) : IsBigint t.toBigint t.val := by
  cases t with
  | int v => exact isBigint_bpIntToBigint v
  | bigint op => exact isBigint_of_canon h

theorem three_le_digitCount {v : Int} (h : ¬ bpIn1WIntRange v) : 3 ≤ digitCount v := by
  rw [in1W_iff] at h
  exact (isUbig_intDigits v.natAbs).three_le_length.2 (by omega)

theorem canon_isBitwise {x y r : Int} {t : Term} (h : Denotes t r)
    (hb : IsBitwise f x y r) : t.Canon ∧ IsBitwise f x y t.val := by
  obtain ⟨hc, rfl⟩ := h
  exact ⟨hc, hb⟩

theorem isBitwise_word (hf : f false false = false) {a b : Int} (ha : bpIn1WIntRange a)
    (hb : bpIn1WIntRange b) {r : BitVec 64}
    (hr : r.toNat = Nat.bitwise f (BitVec.ofInt 64 a).toNat (BitVec.ofInt 64 b).toNat) :
    (wordTerm r.toInt).Canon ∧ IsBitwise f a b (wordTerm r.toInt).val := by
  apply canon_isBitwise (denotes_word _)
  unfold bpIn1WIntRange bpMinint1W bpMaxint1W at ha hb
  rw [toInt_eq_signed (w := 63), hr, toNat_ofInt_eq_word 63, toNat_ofInt_eq_word 63]
  exact isBitwise_signed hf (by omega) (by omega) (by omega) (by omega)

/-- An operator that combines words when both operands are words, and bigints otherwise. `L` says of two
integers and a number of digits that the result is lost. -/
theorem bitwise_spec (f : Bool → Bool → Bool) (L : Nat → Int → Int → Prop) (op : Term → Term → Term)
    {big : Bigint → Bigint → Term}
    (hww : ∀ a b, bpIn1WIntRange a → bpIn1WIntRange b →
      (op (.int a) (.int b)).Canon ∧ IsBitwise f a b (op (.int a) (.int b)).val)
    (hwb : ∀ a b, op (.int a) (.bigint b) = big (bpIntToBigint a) b)
    (hbw : ∀ a b, op (.bigint a) (.int b) = big a (bpIntToBigint b))
    (hbb : ∀ a b, op (.bigint a) (.bigint b) = big a b)
    (hbig : ∀ {a b v w}, IsBigint a v → IsBigint b w → 3 ≤ max a.ds.length b.ds.length →
      (L (max a.ds.length b.ds.length) v w → big a b = .int 0) ∧
        (¬ L (max a.ds.length b.ds.length) v w → ∃ r, Denotes (big a b) r ∧ IsBitwise f v w r)) (x y : Number) :
    (¬ (bpIn1WIntRange x.val ∧ bpIn1WIntRange y.val) ∧ L (max (digitCount x.val) (digitCount y.val)) x.val y.val →
        op x.term y.term = .int 0) ∧
      (¬ (¬ (bpIn1WIntRange x.val ∧ bpIn1WIntRange y.val) ∧ L (max (digitCount x.val) (digitCount y.val)) x.val y.val) →
        (op x.term y.term).Canon ∧ IsBitwise f x.val y.val (op x.term y.term).val) := by
  have hxy : ¬ (bpIn1WIntRange x.val ∧ bpIn1WIntRange y.val) → op x.term y.term = big x.term.toBigint y.term.toBigint →
      (L (max (digitCount x.val) (digitCount y.val)) x.val y.val → op x.term y.term = .int 0) ∧
        (¬ L (max (digitCount x.val) (digitCount y.val)) x.val y.val →
          (op x.term y.term).Canon ∧ IsBitwise f x.val y.val (op x.term y.term).val) := by
    intro h heq
    have h1 := isBigint_toBigint x.canon
    have h2 := isBigint_toBigint y.canon
    have h3 : 3 ≤ max x.term.toBigint.ds.length y.term.toBigint.ds.length := by
      rw [h1.length_eq, h2.length_eq, le_max_iff]
      by_cases hx : bpIn1WIntRange x.val
      · exact .inr (three_le_digitCount (fun hy => h ⟨hx, hy⟩))
      · exact .inl (three_le_digitCount hx)
    have hspec := hbig h1 h2 h3
    rw [h1.length_eq, h2.length_eq] at hspec
    rw [heq]
    refine ⟨hspec.1, fun hok => ?_⟩
    obtain ⟨r, hr, hb⟩ := hspec.2 hok
    exact canon_isBitwise hr hb
  by_cases h : bpIn1WIntRange x.val ∧ bpIn1WIntRange y.val
  · refine ⟨fun hl => absurd h hl.1, fun _ => ?_⟩
    rcases x with ⟨a | a, hx⟩ <;> rcases y with ⟨b | b, hy⟩
    · exact hww a b hx hy
    · exact absurd h.2 (not_in1W_of_canon hy)
    · exact absurd h.1 (not_in1W_of_canon hx)
    · exact absurd h.1 (not_in1W_of_canon hx)
  · have hop : op x.term y.term = big x.term.toBigint y.term.toBigint := by
      rcases x with ⟨a | a, hx⟩ <;> rcases y with ⟨b | b, hy⟩
      · exact absurd ⟨hx, hy⟩ h
      · exact hwb a b
      · exact hbw a b
      · exact hbb a b
    exact ⟨fun hl => (hxy h hop).1 hl.2, fun hok => (hxy h hop).2 (fun hl => hok ⟨h, hl⟩)⟩

theorem bpBitwiseOr_spec (x y : Number) :
    (bpBitwiseOr x.term y.term).Canon ∧ IsBitwise or x.val y.val (bpBitwiseOr x.term y.term).val :=
  (bitwise_spec or (fun _ _ _ => False) bpBitwiseOr
    (fun _ _ hx hy => isBitwise_word rfl hx hy (BitVec.toNat_or _ _)) (fun _ _ => rfl) (fun _ _ => rfl)
    (fun _ _ => rfl) (fun h1 h2 hn => ⟨False.elim, fun _ => bpOrBigintBigint_spec h1 h2 hn⟩) x y).2 (fun h => h.2)

theorem bpBitwiseAnd_spec (x y : Number) : (AndLost x.val y.val → bpBitwiseAnd x.term y.term = .int 0) ∧
      (¬ AndLost x.val y.val →
        (bpBitwiseAnd x.term y.term).Canon ∧ IsBitwise and x.val y.val (bpBitwiseAnd x.term y.term).val) :=
  bitwise_spec and AndWordLost bpBitwiseAnd
    (fun _ _ hx hy => isBitwise_word rfl hx hy (BitVec.toNat_and _ _)) (fun _ _ => rfl) (fun _ _ => rfl)
    (fun _ _ => rfl) bpAndBigintBigint_spec x y

theorem bpBitwiseXor_spec (x y : Number) : (XorLost x.val y.val → bpBitwiseXor x.term y.term = .int 0) ∧
      (¬ XorLost x.val y.val →
        (bpBitwiseXor x.term y.term).Canon ∧ IsBitwise xor x.val y.val (bpBitwiseXor x.term y.term).val) :=
  bitwise_spec xor XorWordLost bpBitwiseXor
    (fun a b hx hy => isBitwise_word rfl hx hy (by
      rw [BitVec.xor_comm]
      exact BitVec.toNat_xor _ _)) (fun _ _ => rfl) (fun _ _ => rfl)
    (fun _ _ => rfl) bpXorBigintBigint_spec x y

theorem bpBitwiseComplement_spec (x : Number) : ∃ t, bpBitwiseComplement x.term = .ok t ∧ Denotes t (-x.val - 1) := by
  rcases x with ⟨a | a, hx⟩ <;> simp only [bpBitwiseComplement, Number.val]
  · refine ⟨_, rfl, ?_⟩
    have hnot : (~~~ BitVec.ofInt 64 a).toInt = -a - 1 := by
      have ha : bpIn1WIntRange a := hx
      unfold bpIn1WIntRange bpMinint1W bpMaxint1W at ha
      rw [BitVec.toInt_not, BitVec.toNat_ofInt, Int.toNat_of_nonneg (Int.emod_nonneg _ (by norm_num))]
      have hb : ((2 : Int) ^ 64 - 1 - a % ((2 ^ 64 : Nat) : Int)).bmod (2 ^ 64) = (-a - 1).bmod (2 ^ 64) := by
        rw [← Int.emod_bmod, ← Int.emod_bmod (-a - 1)]
        congr 1
        omega
      rw [hb]
      exact Int.bmod_eq_of_le (by omega) (by omega)
    rw [hnot]
    exact denotes_word _
  · have hb := isBigint_of_canon hx
    have hne := ne_zero_of_canon hx
    have hbig := not_in1W_of_canon hx
    have hs := IsBigint.sign_cases a
    have hval := hb.val_eq
    have h1 := isBigint_bpIntToBigint 1
    split_ifs with h
    · obtain ⟨hc, hv⟩ := bpAddBigintBigint_denotes hb h1 (.inr one_ne_zero)
      rw [show a.sign = 1 by omega, one_mul] at hval
      cases ht : bpAddBigintBigint a (bpIntToBigint 1) with
      | int c =>
        rw [ht] at hc hv
        have hc1 : c.natAbs < 2 ^ 56 := in1W_iff.1 hc
        have hv1 : c = (Term.bigint a).val + 1 := hv
        rw [in1W_iff] at hbig
        omega
      | bigint c =>
        rw [ht] at hc hv
        refine ⟨_, rfl, ?_⟩
        have hn := isBigint_bpNegBigint (isBigint_of_canon hc)
        have hbig' := not_in1W_of_canon hc
        rw [hv] at hn hbig'
        rw [show -(Term.bigint a).val - 1 = -((Term.bigint a).val + 1) by omega]
        exact denotes_bigint hn (by rw [in1W_iff, Int.natAbs_neg, ← in1W_iff]; exact hbig')
    · exact ⟨_, rfl, bpSubBigintBigint_denotes (isBigint_bpNegBigint hb) h1 (.inr one_ne_zero)⟩

/-- The four operators do what their names say on `x` and `y`. -/
def BitwiseRight (x y : Number) : Prop :=
  ((bpBitwiseAnd x.term y.term).Canon ∧ IsBitwise and x.val y.val (bpBitwiseAnd x.term y.term).val) ∧
    ((bpBitwiseOr x.term y.term).Canon ∧ IsBitwise or x.val y.val (bpBitwiseOr x.term y.term).val) ∧
    ((bpBitwiseXor x.term y.term).Canon ∧ IsBitwise xor x.val y.val (bpBitwiseXor x.term y.term).val) ∧
    ∃ t, bpBitwiseComplement x.term = .ok t ∧ t.Canon ∧ ∀ i, t.val.testBit i = !x.val.testBit i

theorem testBit_high {v : Int} {n : Nat} (h : v.natAbs < 2 ^ n) : v.testBit n = decide (v < 0) := by
  cases v with
  | ofNat m =>
    rw [Int.ofNat_eq_natCast, Int.natAbs_natCast] at h
    rw [decide_eq_false (by rw [Int.ofNat_eq_natCast]; omega)]
    exact Nat.testBit_lt_two_pow h
  | negSucc m =>
    rw [Int.natAbs_negSucc] at h
    rw [decide_eq_true (Int.negSucc_lt_zero m)]
    show (!Nat.testBit m n) = true
    rw [Nat.testBit_lt_two_pow (by omega)]
    rfl

theorem natAbs_lt_digitCount (v : Int) {n : Nat} (h : digitCount v ≤ n) : v.natAbs < 2 ^ (28 * n) := by
  rw [← base_pow]
  exact lt_of_lt_of_le (isUbig_intDigits v.natAbs).lt_pow (Nat.pow_le_pow_right (by decide) h)

/-- Bitwise and, or, exclusive or and complement are right except where an and or an exclusive or is lost. -/
theorem bpBitwise_iff (x y : Number) : BitwiseRight x y ↔ ¬ AndLost x.val y.val ∧ ¬ XorLost x.val y.val := by
  have hbx := testBit_high (natAbs_lt_digitCount x.val (le_max_left _ (digitCount y.val)))
  have hby := testBit_high (natAbs_lt_digitCount y.val (le_max_right (digitCount x.val) _))
  constructor
  · intro h
    obtain ⟨hand, -, hxor, -⟩ := h
    constructor
    · intro hl
      have hbit := hand.2 (28 * max (digitCount x.val) (digitCount y.val))
      rw [(bpBitwiseAnd_spec x y).1 hl, hbx, hby, decide_eq_true hl.2.1, decide_eq_true hl.2.2.1] at hbit
      exact absurd hbit (by rw [show (Term.int 0).val.testBit _ = Nat.testBit 0 _ from rfl, Nat.zero_testBit]; simp)
    · intro hl
      have hbit := hxor.2 (28 * max (digitCount x.val) (digitCount y.val))
      have hsig := hl.2.1
      rw [(bpBitwiseXor_spec x y).1 hl, hbx, hby,
        show (Term.int 0).val.testBit _ = Nat.testBit 0 _ from rfl, Nat.zero_testBit] at hbit
      by_cases h1 : x.val < 0 <;> by_cases h2 : y.val < 0 <;> simp [h1, h2] at hbit hsig
  · intro h
    obtain ⟨h1, h2⟩ := h
    obtain ⟨t, ht, hc, hv⟩ := bpBitwiseComplement_spec x
    refine ⟨(bpBitwiseAnd_spec x y).2 h1, bpBitwiseOr_spec x y, (bpBitwiseXor_spec x y).2 h2, t, ht, hc, ?_⟩
    intro i
    rw [hv]
    exact testBit_complement x.val i

/-- `-(2^84 - 1) /\ -(2^84 - 2)` is `0`, not `-2^84`. -/
theorem bpBitwiseAnd_minus_two_pow_84 : ¬ ∀ x y : Number, BitwiseRight x y := by
  intro h
  have hx : (Term.bigint ⟨-3, [268435455, 268435455, 268435455]⟩).Canon := by
    unfold Term.Canon Valid Stripped
    decide
  have hy : (Term.bigint ⟨-3, [268435454, 268435455, 268435455]⟩).Canon := by
    unfold Term.Canon Valid Stripped
    decide
  have hres : bpBitwiseAnd (.bigint ⟨-3, [268435455, 268435455, 268435455]⟩)
      (.bigint ⟨-3, [268435454, 268435455, 268435455]⟩) = .int 0 :=
    (bpAndBigintBigint_spec (isBigint_of_canon hx) (isBigint_of_canon hy) (by decide)).1
      ⟨by decide, by decide, by decide⟩
  have hbit := (h ⟨_, hx⟩ ⟨_, hy⟩).1.2 84
  rw [hres] at hbit
  have hsign : (Term.int 0).val.testBit 84 ≠ ((Term.bigint ⟨-3, [268435455, 268435455, 268435455]⟩).val.testBit 84 &&
      (Term.bigint ⟨-3, [268435454, 268435455, 268435455]⟩).val.testBit 84) := by decide
  exact hsign hbit

end Picat
