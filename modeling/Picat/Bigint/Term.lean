import Picat.Bigint.UbigDiv

/-!
# Integer terms

An integer term is one word, or `$bigint(SignSize, Ds)`: the sign of `SignSize` is the sign, its magnitude
the number of base-`2^28` digits.

* `bpIntToBigint` : a word as a sign and digits, also when it would fit one word.
-/

namespace Picat
open Digits List

/-! ## Words -/

abbrev bpMaxint1W : Int := 2 ^ 56 - 1

abbrev bpMinint1W : Int := -bpMaxint1W

/-- A value stored in a `BPLONG`. -/
def bplong (x : Int) : Int := x.bmod (2 ^ 64)

def bpIn1WIntRange (op : Int) : Prop := op ≥ bpMinint1W ∧ op ≤ bpMaxint1W

def bpIn28BIntRange (op : Int) : Prop := op > -268435456 ∧ op < 268435456

instance (op : Int) : Decidable (bpIn1WIntRange op) := inferInstanceAs (Decidable (_ ∧ _))
instance (op : Int) : Decidable (bpIn28BIntRange op) := inferInstanceAs (Decidable (_ ∧ _))

theorem bplong_eq {x : Int} (hl : -2 ^ 63 ≤ x) (hu : x < 2 ^ 63) : bplong x = x :=
  Int.bmod_eq_of_le (by omega) (by omega)

/-- `MAKEINT` on the machine word: two tag bits below, the tag bit on top. -/
def makeintWord (op : BitVec 64) : BitVec 64 := (op <<< 2) ||| 0x8000000000000002#64

/-- `INTVAL` on the machine word. -/
def intvalWord (op : BitVec 64) : BitVec 64 := (op <<< 1).sshiftRight 3

theorem intvalWord_makeintWord (op : BitVec 64) : intvalWord (makeintWord op) = (op.setWidth 61).signExtend 64 := by
  have htag : ∀ i < 61, (0x8000000000000002#64).getLsbD (i + 2) = false := by decide
  apply BitVec.eq_of_getLsbD_eq
  intro i hi
  have hmsb : (makeintWord op <<< 1).msb = op.getLsbD 60 := by
    simp [makeintWord, BitVec.msb_eq_getLsbD_last]
  rw [intvalWord, BitVec.getLsbD_sshiftRight, hmsb, BitVec.getLsbD_signExtend, BitVec.msb_eq_getLsbD_last]
  by_cases h : i < 61
  · have hbit : (makeintWord op <<< 1).getLsbD (3 + i) = op.getLsbD i := by
      rw [BitVec.getLsbD_shiftLeft, makeintWord, show 3 + i - 1 = i + 2 by omega, BitVec.getLsbD_or, htag i h,
        BitVec.getLsbD_shiftLeft]
      simp [show 3 + i < 64 by omega, show i + 2 < 64 by omega]
    rw [hbit]
    simp [h, hi, show 3 + i < 64 by omega, show ¬ 64 ≤ i by omega]
  · simp [h, hi, show ¬ 3 + i < 64 by omega]

/-! ## Terms -/

/-- `$bigint(SignSize, Ds)`, the lowest digit first. -/
structure Bigint where
  signSize : Int
  ds : List Nat
deriving DecidableEq, Repr

inductive Term
  | int (v : Int)
  | bigint (b : Bigint)
deriving DecidableEq, Repr

/-- `MAKEINT`, read back with `INTVAL`. -/
def makeint (v : Int) : Term := .int (v.bmod (2 ^ 61))

theorem toInt_intvalWord_makeintWord (v : Int) :
    Term.int (intvalWord (makeintWord (BitVec.ofInt 64 v))).toInt = makeint v := by
  rw [intvalWord_makeintWord, BitVec.toInt_signExtend_of_le (by decide), BitVec.toInt_setWidth, makeint, Term.int.injEq]
  rw [BitVec.toNat_ofInt, Int.toNat_of_nonneg (Int.emod_nonneg _ (by norm_num))]
  rw [← Int.emod_bmod, Int.emod_emod_of_dvd _ ⟨8, by norm_num⟩, Int.emod_bmod]

/-- The sign that `BP_DECOMPOSE_BIGINT` finds. -/
def Bigint.sign (b : Bigint) : Int := if b.signSize < 0 then -1 else 1

def Term.val : Term → Int
  | .int v => v
  | .bigint b => b.sign * ubigVal b.ds

def Term.Canon : Term → Prop
  | .int v => bpIn1WIntRange v
  | .bigint b => b.signSize.natAbs = b.ds.length ∧ 3 ≤ b.ds.length ∧ Valid bpBigintBase b.ds ∧ Stripped b.ds

/-- `t` is the canonical representation of `v`. -/
def Denotes (t : Term) (v : Int) : Prop := t.Canon ∧ t.val = v

structure Number where
  term : Term
  canon : term.Canon

def Number.val (x : Number) : Int := x.term.val

/-- `b` stands for `v`, in as many digits as `v` has. -/
structure IsBigint (b : Bigint) (v : Int) : Prop where
  size : b.signSize.natAbs = b.ds.length
  ubig : IsUbig b.ds v.natAbs
  val_eq : b.sign * v.natAbs = v

theorem IsBigint.sign_cases (b : Bigint) : b.sign = 1 ∨ b.sign = -1 := by
  unfold Bigint.sign
  split_ifs
  · exact .inr rfl
  · exact .inl rfl

variable {v : Int} {m : Nat} {x : List Nat} {b : Bigint}

theorem in1W_iff {v : Int} : bpIn1WIntRange v ↔ v.natAbs < 2 ^ 56 := by
  unfold bpIn1WIntRange bpMinint1W bpMaxint1W
  omega

theorem IsUbig.three_le_length (hx : IsUbig x m) : 3 ≤ x.length ↔ 2 ^ 56 ≤ m := by
  rw [show 2 ^ 56 = bpBigintBase ^ 2 by rfl]
  constructor
  · intro h
    refine le_trans (Nat.pow_le_pow_right (by decide) (by omega)) (hx.pow_le ?_)
    rintro rfl
    have := hx.eq_nil_iff.2 rfl
    simp [this] at h
  · intro h
    have := (Nat.pow_lt_pow_iff_right one_lt_base).1 (lt_of_le_of_lt h hx.lt_pow)
    omega

theorem denotes_bigint (hb : IsBigint b v) (hv : ¬ bpIn1WIntRange v) : Denotes (.bigint b) v := by
  rw [in1W_iff] at hv
  refine ⟨⟨hb.size, hb.ubig.three_le_length.2 (by omega), hb.ubig.valid, hb.ubig.stripped⟩, ?_⟩
  rw [Term.val, hb.ubig.val_eq]
  exact hb.val_eq

theorem isBigint_of_canon (h : (Term.bigint b).Canon) : IsBigint b (Term.bigint b).val := by
  have habs : (Term.bigint b).val.natAbs = ubigVal b.ds := by
    rw [Term.val, Int.natAbs_mul]
    rcases IsBigint.sign_cases b with hs | hs <;> rw [hs] <;> simp
  refine ⟨h.1, ⟨h.2.2.1, h.2.2.2, habs.symm⟩, ?_⟩
  rw [habs]
  rfl

theorem not_in1W_of_canon (h : (Term.bigint b).Canon) : ¬ bpIn1WIntRange (Term.bigint b).val := by
  rw [in1W_iff, not_lt]
  exact (isBigint_of_canon h).ubig.three_le_length.1 h.2.1

theorem IsBigint.ext {c : Bigint} (hb : IsBigint b v) (hc : IsBigint c v) : b = c := by
  have hds : b.ds = c.ds := hb.ubig.ext hc.ubig
  have hsize : b.signSize.natAbs = c.signSize.natAbs := by rw [hb.size, hc.size, hds]
  have hsign := hb.val_eq.trans hc.val_eq.symm
  have hss : b.signSize = c.signSize := by
    by_cases h0 : v = 0
    · have hnil := hb.ubig.eq_nil_iff.2 (by rw [h0]; rfl)
      have hb0 := hb.size
      rw [hnil, length_nil] at hb0
      omega
    · have := mul_right_cancel₀ (by omega) hsign
      unfold Bigint.sign at this
      split_ifs at this <;> omega
  cases b
  cases c
  simp only at hds hss
  rw [hds, hss]

theorem Denotes.unique {s t : Term} (hs : Denotes s v) (ht : Denotes t v) : s = t := by
  obtain ⟨hsc, rfl⟩ := hs
  obtain ⟨htc, htv⟩ := ht
  cases s with
  | int a =>
    cases t with
    | int b => exact congrArg Term.int htv.symm
    | bigint b => exact absurd (by rw [htv]; exact hsc) (not_in1W_of_canon htc)
  | bigint a =>
    cases t with
    | int b => exact absurd (by rw [← htv]; exact htc) (not_in1W_of_canon hsc)
    | bigint b =>
      have hb := isBigint_of_canon htc
      rw [htv] at hb
      rw [(isBigint_of_canon hsc).ext hb]

/-! ## Building terms -/

theorem denotes_makeint (h : bpIn1WIntRange v) : Denotes (makeint v) v := by
  have hv : v.bmod (2 ^ 61) = v := by
    unfold bpIn1WIntRange bpMinint1W bpMaxint1W at h
    exact Int.bmod_eq_of_le (by omega) (by omega)
  rw [makeint, hv]
  exact ⟨h, rfl⟩

theorem denotes_zero : Denotes (.int 0) 0 := ⟨by unfold Term.Canon; decide, rfl⟩

def bpMakeBigintFromUbig (sign : Int) (x : List Nat) : Bigint := ⟨sign * x.length, x⟩

theorem isBigint_makeBigintFromUbig {sign : Int} (hx : IsUbig x m)
    (hs : sign = 1 ∨ sign = -1) (hm : m ≠ 0 ∨ sign = 1) : IsBigint (bpMakeBigintFromUbig sign x) (sign * m) := by
  have habs : (sign * (m : Int)).natAbs = m := by
    rcases hs with rfl | rfl <;> simp
  have hlen : m ≠ 0 → 0 < x.length := fun h => length_pos_of_ne_nil (fun h' => h (hx.eq_nil_iff.1 h'))
  refine ⟨?_, by rw [habs]; exact hx, ?_⟩
  · rcases hs with rfl | rfl <;> simp [bpMakeBigintFromUbig]
  · rw [habs]
    congr 1
    unfold Bigint.sign bpMakeBigintFromUbig
    rcases hs with rfl | rfl
    · simp only
      split_ifs with h
      · omega
      · rfl
    · have := hlen (by omega)
      simp only
      split_ifs with h
      · rfl
      · omega

theorem isBigint_zero : IsBigint ⟨0, []⟩ 0 :=
  ⟨rfl, ⟨Valid.nil, fun h => absurd rfl h, rfl⟩, rfl⟩

/-- The end of `bp_add_bigint_bigint` and its siblings: a term for `size > 0` digits and a sign. -/
def makeNumber (sign : Int) (z : List Nat) : Term :=
  if z.length = 1 then makeint (sign * z.getD 0 0)
  else if z.length = 2 then makeint (sign * (z.getD 1 0 * bpBigintBase + z.getD 0 0))
  else .bigint (bpMakeBigintFromUbig sign z)

theorem makeNumber_denotes {z : List Nat} {sign : Int} (hz : IsUbig z m) (hs : sign = 1 ∨ sign = -1)
    (hm : m ≠ 0) : Denotes (makeNumber sign z) (sign * m) := by
  have hne : z ≠ [] := fun h => hm (hz.eq_nil_iff.1 h)
  have habs : (sign * (m : Int)).natAbs = m := by
    rcases hs with rfl | rfl <;> simp
  have h3 := hz.three_le_length
  have hval := hz.val_eq
  unfold makeNumber
  split_ifs with h1 h2
  · obtain ⟨d, rfl⟩ := length_eq_one_iff.1 h1
    obtain rfl : d = m := by simpa [ubigVal] using hval
    exact denotes_makeint (in1W_iff.2 (by rw [getD_cons_zero, habs]; omega))
  · obtain ⟨d, e, rfl⟩ := length_eq_two.1 h2
    have hde : (e : Int) * bpBigintBase + d = m := by
      rw [← hval]
      simp only [ubigVal, Nat.ofDigits_cons, Nat.ofDigits_nil]
      push_cast
      ring
    simp only [getD_cons_zero, getD_cons_succ]
    rw [hde]
    exact denotes_makeint (in1W_iff.2 (by rw [habs]; omega))
  · have hlen : 3 ≤ z.length := by
      have := length_pos_of_ne_nil hne
      omega
    exact denotes_bigint (isBigint_makeBigintFromUbig hz hs (.inl hm))
      (by rw [in1W_iff, habs]; have := h3.1 hlen; omega)

/-- The digit loop of `bp_int_to_bigint`. -/
def intDigits (a : Nat) : List Nat :=
  if a = 0 then [] else a % bpBigintBase :: intDigits (a / bpBigintBase)
termination_by a
decreasing_by exact Nat.div_lt_self (by omega) one_lt_base

theorem intDigits_eq (a : Nat) : intDigits a = bpBigintBase.digits a := by
  induction a using Nat.strong_induction_on with
  | _ a ih =>
    rw [intDigits]
    split_ifs with h
    · rw [h, Nat.digits_zero]
    · rw [Nat.digits_def' one_lt_base (by omega), ih _ (Nat.div_lt_self (by omega) one_lt_base)]

def bpIntToBigint (a : Int) : Bigint :=
  if a < 0 then bpMakeBigintFromUbig (-1) (intDigits (-a).toNat)
  else bpMakeBigintFromUbig 1 (intDigits a.toNat)

theorem isUbig_intDigits (a : Nat) : IsUbig (intDigits a) a := by
  rw [intDigits_eq]
  exact ⟨valid_digits one_lt_base a, stripped_digits _ a, Nat.ofDigits_digits _ a⟩

theorem isBigint_bpIntToBigint (a : Int) : IsBigint (bpIntToBigint a) a := by
  unfold bpIntToBigint
  split_ifs with h
  · have hb := isBigint_makeBigintFromUbig (isUbig_intDigits (-a).toNat) (.inr rfl) (.inl (by omega))
    rwa [show -1 * ((-a).toNat : Int) = a by omega] at hb
  · have hb := isBigint_makeBigintFromUbig (isUbig_intDigits a.toNat) (.inl rfl) (.inr rfl)
    rwa [show 1 * (a.toNat : Int) = a by omega] at hb

theorem denotes_word (v : Int) : Denotes (if bpIn1WIntRange v then makeint v else .bigint (bpIntToBigint v)) v := by
  split_ifs with h
  · exact denotes_makeint h
  · exact denotes_bigint (isBigint_bpIntToBigint v) h

def Number.ofInt (v : Int) : Number :=
  ⟨if bpIn1WIntRange v then makeint v else .bigint (bpIntToBigint v), (denotes_word v).1⟩

theorem Number.val_ofInt (v : Int) : (Number.ofInt v).val = v := (denotes_word v).2

/-! ## Comparison -/

def bpCompareBigintBigint (x y : Bigint) : Int :=
  if x.sign > 0 ∧ y.sign < 0 then 1
  else if x.sign < 0 ∧ y.sign > 0 then -1
  else if x.signSize.natAbs > y.signSize.natAbs then (if x.sign = 1 then 1 else -1)
  else if x.signSize.natAbs < y.signSize.natAbs then (if y.sign = 1 then -1 else 1)
  else x.sign * bpCompareMagMag x.signSize.natAbs x.ds y.ds

theorem compareMagnitudes {y : List Nat} {a b : Nat} (hx : IsUbig x a) (hy : IsUbig y b) :
    (if x.length > y.length then 1 else if x.length < y.length then -1 else bpCompareMagMag x.length x y) =
      Int.sign ((a : Int) - b) := by
  rw [← hx.val_eq, ← hy.val_eq]
  split_ifs with hgt hlt
  · have : ubigVal y < ubigVal x := ofDigits_lt_of_length_lt one_lt_base hy.valid hx.stripped hgt
    exact (Int.sign_eq_one_of_pos (by omega)).symm
  · have : ubigVal x < ubigVal y := ofDigits_lt_of_length_lt one_lt_base hx.valid hy.stripped hlt
    exact (Int.sign_eq_neg_one_of_neg (by omega)).symm
  · exact bpCompareMagMag_spec hx.valid hy.valid (by omega)

theorem IsBigint.sign_eq (h : IsBigint b v) : b.sign = if v < 0 then -1 else 1 := by
  have hval := h.val_eq
  rcases IsBigint.sign_cases b with hs | hs
  · rw [hs, one_mul] at hval
    rw [hs, if_neg (by omega)]
  · rw [hs, neg_one_mul] at hval
    have hne : v ≠ 0 := by
      intro h0
      have hnil := h.ubig.eq_nil_iff.2 (by rw [h0]; rfl)
      have hsize := h.size
      rw [hnil, length_nil] at hsize
      unfold Bigint.sign at hs
      split_ifs at hs
      omega
    rw [hs, if_pos (by omega)]

theorem IsBigint.compare {b' : Bigint} {w : Int} (h : IsBigint b v) (h' : IsBigint b' w) :
    bpCompareBigintBigint b b' = Int.sign (v - w) := by
  have hmag := compareMagnitudes h.ubig h'.ubig
  unfold bpCompareBigintBigint
  rw [h.size, h'.size, h.sign_eq, h'.sign_eq]
  by_cases hv : v < 0 <;> by_cases hw : w < 0
  · rw [if_pos hv, if_pos hw, if_neg (by decide), if_neg (by decide)]
    have hneg : v - w = -((v.natAbs : Int) - w.natAbs) := by omega
    rw [hneg, Int.sign_neg, ← hmag]
    split_ifs <;> first | rfl | contradiction | ring
  · rw [if_pos hv, if_neg hw, if_neg (by decide), if_pos (by decide), Int.sign_eq_neg_one_of_neg (by omega)]
  · rw [if_neg hv, if_pos hw, if_pos (by decide), Int.sign_eq_one_of_pos (by omega)]
  · rw [if_neg hv, if_neg hw, if_neg (by decide), if_neg (by decide)]
    have hpos : v - w = (v.natAbs : Int) - w.natAbs := by omega
    rw [hpos, ← hmag, one_mul]
    rfl

end Picat

/-! # Decimal printing of bigints -/

namespace Picat
open Digits List

/-! ## The buffer -/

inductive WriteError
  | outOfMemory
  | outOfBounds
deriving DecidableEq, Repr

/-- `d+'0'`. -/
def asciiDigit (d : Nat) : Char := Char.ofNat (d + 48)

/-- `sprintf(loc_buf, "%d", d)`. -/
def sprintfInt (d : Nat) : List Char :=
  if d = 0 then ['0'] else (Nat.digits 10 d).reverse.map asciiDigit

/-- The characters `cs` written to `buf[i]`, `buf[i-1]`, ...; `out` is the buffer from `buf[i+1]` on. -/
def putChars : List Char → Int → List Char → Except WriteError (List Char)
  | [], _, out => .ok out
  | c :: cs, i, out => if i < 0 then .error .outOfBounds else putChars cs (i - 1) (c :: out)

/-- `remainder%10`, and so on for `remainder/10`: the `k` digits of one chunk. -/
def chunkDigits : Nat → Nat → List Nat
  | 0, _ => []
  | k + 1, remainder => remainder % 10 :: chunkDigits k (remainder / 10)

/-- The loop of `bp_write_bigint_to_str`: the last block, the index and what is written. -/
def writeChunks (x : List Nat) (i : Int) (out : List Char) : Except WriteError (Nat × Int × List Char) :=
  let (q, r) := bpDivUbigUbig x [100000000]
  if _h : i ≤ 8 then .error .outOfMemory
  else
    (putChars ((chunkDigits 8 (r.getD 0 0)).map asciiDigit) i out).bind fun out =>
      if q.length > 1 then writeChunks q (i - 8) out
      else .ok (q.headD (x.headD 0), i - 8, out)
termination_by i.toNat
decreasing_by omega

def writeLast (sign : Int) (d : Nat) (i : Int) (out : List Char) : Except WriteError (Int × List Char) :=
  let locBuf := sprintfInt d
  if locBuf.length ≥ 10 then .error .outOfBounds
  else if i ≤ locBuf.length then .error .outOfMemory
  else
    (putChars locBuf.reverse i out).bind fun out =>
      let i := i - locBuf.length
      if sign < 0 then (putChars ['-'] i out).map fun out => (i, out) else .ok (i + 1, out)

/-- `bp_write_bigint_to_str`: the start index and the buffer from there on. -/
def bpWriteBigintToStr (op : Bigint) (bufSize : Nat) : Except WriteError (Int × List Char) :=
  (putChars [Char.ofNat 0] (bufSize - 1) []).bind fun out =>
    (writeChunks op.ds (bufSize - 2) out).bind fun (d, i, out) => writeLast op.sign d i out

/-! ## Decimal digits -/

section
variable {m k : Nat}

theorem length_chunkDigits (k r : Nat) : (chunkDigits k r).length = k := by
  induction k generalizing r with
  | zero => rfl
  | succ k ih => rw [chunkDigits, length_cons, ih]

theorem valid_chunkDigits (k r : Nat) : Valid 10 (chunkDigits k r) := by
  induction k generalizing r with
  | zero => exact Valid.nil
  | succ k ih => exact valid_cons.2 ⟨Nat.mod_lt _ (by decide), ih _⟩

theorem ofDigits_chunkDigits (k r : Nat) : Nat.ofDigits 10 (chunkDigits k r) = r % 10 ^ k := by
  induction k generalizing r with
  | zero => rw [pow_zero, Nat.mod_one]; rfl
  | succ k ih => rw [chunkDigits, Nat.ofDigits_cons, ih, pow_succ', Nat.mod_mul]

theorem digits_chunk (hm : 10 ^ k ≤ m) :
    Nat.digits 10 m = chunkDigits k (m % 10 ^ k) ++ Nat.digits 10 (m / 10 ^ k) := by
  have hpos : 0 < 10 ^ k := by positivity
  have hq : m / 10 ^ k ≠ 0 := Nat.ne_of_gt (Nat.div_pos hm hpos)
  refine Stripped.ext (b := 10) (by decide) (valid_digits (by decide) m) (stripped_digits 10 m)
    (valid_append.2 ⟨valid_chunkDigits _ _, valid_digits (by decide) _⟩) ?_ ?_
  · intro hne
    rw [getLast_append_of_ne_nil _ (Nat.digits_ne_nil_iff_ne_zero.2 hq)]
    exact stripped_digits 10 _ _
  · rw [Nat.ofDigits_append, ofDigits_chunkDigits, length_chunkDigits, Nat.ofDigits_digits, Nat.ofDigits_digits,
      Nat.mod_mod, Nat.mod_add_div]

def decimalLength (m : Nat) : Nat := (Nat.digits 10 m).length

theorem decimalLength_chunk (hm : 10 ^ k ≤ m) : decimalLength m = k + decimalLength (m / 10 ^ k) := by
  rw [decimalLength, decimalLength, digits_chunk hm, length_append, length_chunkDigits]

def numeral (m : Nat) : List Char := (Nat.digits 10 m).reverse.map asciiDigit

theorem length_numeral (m : Nat) : (numeral m).length = decimalLength m := by
  rw [numeral, length_map, length_reverse, decimalLength]

theorem numeral_chunk (hm : 10 ^ k ≤ m) :
    numeral m = numeral (m / 10 ^ k) ++ ((chunkDigits k (m % 10 ^ k)).map asciiDigit).reverse := by
  rw [numeral, numeral, digits_chunk hm, reverse_append, List.map_append, ← map_reverse]

theorem sprintfInt_eq {d : Nat} (hd : d ≠ 0) : sprintfInt d = numeral d := if_neg hd

end

/-! ## The loop -/

theorem putChars_eq : ∀ (cs : List Char) {i : Int} (out : List Char), cs.length ≤ i + 1 →
    putChars cs i out = .ok (cs.reverse ++ out)
  | [], _, _, _ => rfl
  | c :: cs, i, out, h => by
    rw [length_cons] at h
    push_cast at h
    rw [putChars, if_neg (by omega), putChars_eq cs (c :: out) (by omega), reverse_cons, append_assoc]
    rfl

/-- The start index and the buffer from there on, with the sign. -/
def withSign (sign : Int) (i : Int) (out : List Char) : Int × List Char :=
  if sign < 0 then (i, '-' :: out) else (i + 1, out)

section
variable {d m : Nat} {i : Int} {x : List Nat} {out : List Char}

theorem IsUbig.head_eq (hx : IsUbig x m) (hm : m < bpBigintBase) : x.getD 0 0 = m ∧ (m ≠ 0 → ∀ e, x.headD e = m) := by
  have hv := hx.val_eq
  have hl : x.length ≤ 1 := by
    by_contra hc
    have hne : m ≠ 0 := fun h => by simp [hx.eq_nil_iff.2 h] at hc
    have hpow := hx.pow_le hne
    have := Nat.pow_le_pow_right (n := bpBigintBase) (by decide) (show 1 ≤ x.length - 1 by omega)
    rw [pow_one] at this
    omega
  rcases x with _ | ⟨a, _ | _⟩
  · have h0 : m = 0 := hv.symm
    exact ⟨h0.symm, fun h => absurd h0 h⟩
  · have ha : a = m := by simpa [ubigVal] using hv
    exact ⟨ha, fun _ _ => ha⟩
  · simp at hl

theorem writeLast_eq (sign : Int) (h0 : d ≠ 0) (hd : d < bpBigintBase) :
    writeLast sign d i out = if (decimalLength d : Int) + 1 ≤ i then
      .ok (withSign sign (i - decimalLength d) (numeral d ++ out)) else .error .outOfMemory := by
  have hlen : decimalLength d ≤ 9 := by
    rw [decimalLength, Nat.digits_length_le_iff (by decide)]
    exact lt_trans hd (by decide)
  have hl : (sprintfInt d).length = decimalLength d := by rw [sprintfInt_eq h0, length_numeral]
  simp only [writeLast, hl]
  rw [if_neg (by omega)]
  by_cases hi : (decimalLength d : Int) + 1 ≤ i
  · rw [if_neg (by omega), if_pos hi, putChars_eq _ _ (by rw [length_reverse, hl]; omega),
      reverse_reverse, sprintfInt_eq h0]
    simp only [Except.bind, withSign]
    split_ifs
    · rw [putChars_eq _ _ (by simp only [length_singleton]; omega)]
      rfl
    · rfl
  · rw [if_pos (by omega), if_neg hi]

/-- The loop and the last block: the numeral goes in when there is room for it and a sign. -/
theorem writeChunks_spec (sign : Int) (m : Nat) : ∀ {x : List Nat} {i : Int} {out : List Char}, IsUbig x m →
    bpBigintBase ≤ m → ((writeChunks x i out).bind fun (d, i, out) => writeLast sign d i out) =
      if (decimalLength m : Int) + 1 ≤ i then .ok (withSign sign (i - decimalLength m) (numeral m ++ out))
      else .error .outOfMemory := by
  induction m using Nat.strong_induction_on with
  | _ m ih =>
    intro x i out hx hm
    have hy : IsUbig [100000000] 100000000 :=
      ⟨by unfold Valid; decide, by unfold Stripped; decide, by decide⟩
    have hbase : bpBigintBase = 268435456 := rfl
    obtain ⟨hq, hr⟩ := bpDivUbigUbig_spec hx hy (by decide) (by omega)
    have hge : 10 ^ 8 ≤ m := by omega
    have hlen := decimalLength_chunk hge
    have hnum := numeral_chunk hge
    have hpos : 0 < decimalLength (m / 10 ^ 8) := by
      rw [decimalLength]
      exact length_pos_of_ne_nil (Nat.digits_ne_nil_iff_ne_zero.2 (by omega))
    have hrem : (bpDivUbigUbig x [100000000]).2.getD 0 0 = m % 10 ^ 8 := (hr.head_eq (by omega)).1
    rw [writeChunks]
    simp only [hrem]
    by_cases hi : i ≤ 8
    · rw [dif_pos hi, if_neg (by omega)]
      rfl
    · rw [dif_neg hi, putChars_eq _ _ (by rw [length_map, length_chunkDigits]; omega)]
      simp only [Except.bind]
      have hgo : (decimalLength m : Int) + 1 ≤ i ↔ (decimalLength (m / 10 ^ 8) : Int) + 1 ≤ i - 8 := by omega
      have hend : withSign sign (i - decimalLength m) (numeral m ++ out) =
          withSign sign (i - 8 - decimalLength (m / 10 ^ 8))
            (numeral (m / 10 ^ 8) ++ (((chunkDigits 8 (m % 10 ^ 8)).map asciiDigit).reverse ++ out)) := by
        rw [hnum, append_assoc, hlen]
        congr 1
        push_cast
        ring
      rw [if_congr hgo rfl rfl, hend]
      by_cases hlong : bpBigintBase ≤ m / 10 ^ 8
      · have hl : (bpDivUbigUbig x [100000000]).1.length > 1 := by
          by_contra hc
          have hlt := hq.lt_pow
          have := Nat.pow_le_pow_right (n := bpBigintBase) (by decide) (show _ ≤ 1 from Nat.le_of_not_lt hc)
          rw [pow_one] at this
          omega
        rw [if_pos hl]
        exact ih (m / 10 ^ 8) (Nat.div_lt_self (by omega) (by decide)) hq hlong
      · have hhead := (hq.head_eq (by omega)).2 (by omega)
        have hl : ¬ (bpDivUbigUbig x [100000000]).1.length > 1 := by
          have hpow := hq.pow_le (by omega)
          intro hc
          have := Nat.pow_le_pow_right (n := bpBigintBase) (by decide)
            (show 1 ≤ (bpDivUbigUbig x [100000000]).1.length - 1 by omega)
          rw [pow_one] at this
          omega
        rw [if_neg hl, hhead]
        exact writeLast_eq sign (by omega) (by omega)

end

/-! ## The numeral -/

/-- `text` is the numeral of `n` and the end of the string: a minus sign exactly for a negative `n`, then the digits of the
magnitude without leading zeros. -/
def IsNumeral (text : List Char) (n : Int) : Prop :=
  ∃ ds : List Nat, text = (if n < 0 then ['-'] else []) ++ ds.map asciiDigit ++ [Char.ofNat 0] ∧
    (∀ d ∈ ds, d < 10) ∧ (∃ d ∈ ds.head?, d ≠ 0) ∧ Nat.ofDigits 10 ds.reverse = n.natAbs

theorem isNumeral_numeral {n : Int} (hn : n ≠ 0) :
    IsNumeral ((if n < 0 then ['-'] else []) ++ numeral n.natAbs ++ [Char.ofNat 0]) n := by
  have hne : Nat.digits 10 n.natAbs ≠ [] := Nat.digits_ne_nil_iff_ne_zero.2 (by omega)
  refine ⟨(Nat.digits 10 n.natAbs).reverse, rfl, ?_, ?_, ?_⟩
  · intro d hd
    exact valid_digits (by decide) _ d (mem_reverse.1 hd)
  · rw [List.head?_reverse, List.getLast?_eq_getLast_of_ne_nil hne]
    exact ⟨_, rfl, stripped_digits 10 _ hne⟩
  · rw [reverse_reverse, Nat.ofDigits_digits]

theorem bpWriteBigintToStr_eq {op : Bigint} {v : Int} (hb : IsBigint op v) (hv : bpBigintBase ≤ v.natAbs)
    {bufSize : Nat} (hbuf : 0 < bufSize) :
    bpWriteBigintToStr op bufSize = if decimalLength v.natAbs + 3 ≤ bufSize then
      .ok (withSign op.sign (bufSize - 2 - decimalLength v.natAbs) (numeral v.natAbs ++ [Char.ofNat 0]))
      else .error .outOfMemory := by
  have hrun : ((writeChunks op.ds (bufSize - 2) [Char.ofNat 0]).bind fun (d, i, out) => writeLast op.sign d i out) = _ :=
    writeChunks_spec op.sign v.natAbs hb.ubig hv
  have hfit : (decimalLength v.natAbs : Int) + 1 ≤ bufSize - 2 ↔ decimalLength v.natAbs + 3 ≤ bufSize := by omega
  rw [if_congr hfit rfl rfl] at hrun
  rw [bpWriteBigintToStr, putChars_eq _ _ (by simp only [length_singleton]; omega)]
  exact hrun

theorem base_le_of_canon {op : Bigint} (hop : (Term.bigint op).Canon) : bpBigintBase ≤ (Term.bigint op).val.natAbs := by
  have h := not_in1W_of_canon hop
  rw [in1W_iff, not_lt] at h
  exact le_trans (by decide) h

/-- A bigint is printed as its numeral when three more characters than its digits fit; else `et_OUT_OF_MEMORY` is
reported. Neither way is anything written outside the buffer. -/
theorem bpWriteBigintToStr_spec (op : Bigint) (hop : (Term.bigint op).Canon) (bufSize : Nat) (hbuf : 0 < bufSize) :
    (decimalLength (Term.bigint op).val.natAbs + 3 ≤ bufSize → ∃ i text,
      bpWriteBigintToStr op bufSize = .ok (i, text) ∧ IsNumeral text (Term.bigint op).val ∧
      0 ≤ i ∧ i + text.length = bufSize) ∧
    (bufSize < decimalLength (Term.bigint op).val.natAbs + 3 →
      bpWriteBigintToStr op bufSize = .error .outOfMemory) := by
  have hb := isBigint_of_canon hop
  have hbig := base_le_of_canon hop
  have hpos : 0 < bpBigintBase := by decide
  have hval := hb.val_eq
  rw [bpWriteBigintToStr_eq hb hbig hbuf]
  set v := (Term.bigint op).val
  have hs : op.sign < 0 ↔ v < 0 := by
    rcases IsBigint.sign_cases op with hs | hs <;> rw [hs] at hval ⊢ <;> omega
  constructor
  · intro hfit
    rw [if_pos hfit]
    have hnum := isNumeral_numeral (n := v) (by omega)
    by_cases h : v < 0
    · rw [withSign, if_pos (hs.2 h)]
      rw [if_pos h] at hnum
      refine ⟨_, _, rfl, hnum, by omega, ?_⟩
      simp only [length_cons, length_append, length_nil, length_numeral]
      omega
    · rw [withSign, if_neg (fun hc => h (hs.1 hc))]
      rw [if_neg h] at hnum
      refine ⟨_, _, rfl, hnum, by omega, ?_⟩
      simp only [length_cons, length_append, length_nil, length_numeral]
      omega
  · intro hshort
    exact if_neg (by omega)

theorem bpWriteBigintToStr_two_pow_56 : ∃ i text, bpWriteBigintToStr ⟨3, [0, 0, 1]⟩ 8192 = .ok (i, text) ∧
    IsNumeral text (2 ^ 56) ∧ 0 ≤ i ∧ i + text.length = (8192 : Nat) := by
  have hop : (Term.bigint ⟨3, [0, 0, 1]⟩).Canon := by unfold Term.Canon Valid Stripped; decide
  have hval : (Term.bigint ⟨3, [0, 0, 1]⟩).val = 2 ^ 56 := by decide
  have h := (bpWriteBigintToStr_spec ⟨3, [0, 0, 1]⟩ hop 8192 (by decide)).1
  rw [hval] at h
  apply h
  have hlen : decimalLength (Int.natAbs (2 ^ 56)) ≤ 20 := by
    rw [decimalLength, Nat.digits_length_le_iff (by decide)]
    decide
  omega

theorem isBigint_pow_base (k : Nat) :
    IsBigint (bpMakeBigintFromUbig 1 (List.replicate k 0 ++ [1])) ((bpBigintBase ^ k : Nat) : Int) := by
  have hds : IsUbig (List.replicate k 0 ++ [1]) (bpBigintBase ^ k) := by
    refine ⟨valid_append.2 ⟨Valid.replicate_zero (by decide) _, by unfold Valid; decide⟩,
      stripped_append_singleton.2 one_ne_zero, ?_⟩
    rw [ubigVal, Nat.ofDigits_append, Nat.ofDigits_replicate_zero, length_replicate, Nat.ofDigits_singleton,
      Nat.zero_add, mul_one]
  have hb := isBigint_makeBigintFromUbig hds (.inl rfl) (.inr rfl)
  rwa [one_mul] at hb

theorem lt_decimalLength_pow_base (k : Nat) : 42 * (k / 5) < decimalLength (bpBigintBase ^ k) := by
  have h5 : 10 ^ 42 ≤ bpBigintBase ^ 5 := by decide
  rw [decimalLength, Nat.lt_digits_length_iff (by decide)]
  calc 10 ^ (42 * (k / 5)) = (10 ^ 42) ^ (k / 5) := pow_mul 10 42 _
    _ ≤ (bpBigintBase ^ 5) ^ (k / 5) := Nat.pow_le_pow_left h5 _
    _ = bpBigintBase ^ (5 * (k / 5)) := (pow_mul _ 5 _).symm
    _ ≤ bpBigintBase ^ k := Nat.pow_le_pow_right (by decide) (Nat.mul_div_le k 5)

/-- The power `2^28000` has more than 8189 digits and does not go into the buffer of `MAX_STR_LEN` characters. -/
theorem bpWriteBigintToStr_two_pow_28000 : ¬ ∀ op : Bigint, (Term.bigint op).Canon →
    ∃ i text, bpWriteBigintToStr op 8192 = .ok (i, text) ∧ IsNumeral text (Term.bigint op).val := by
  intro h
  obtain ⟨k, hk⟩ : ∃ k, k = 1000 := ⟨1000, rfl⟩
  have hb := isBigint_pow_base k
  have hlen := lt_decimalLength_pow_base k
  have hbig : bpBigintBase ≤ ((bpBigintBase ^ k : Nat) : Int).natAbs := by
    rw [Int.natAbs_natCast]
    exact Nat.le_self_pow (by omega) _
  have hcanon : (Term.bigint (bpMakeBigintFromUbig 1 (List.replicate k 0 ++ [1]))).Canon := by
    refine ⟨hb.size, ?_, hb.ubig.valid, hb.ubig.stripped⟩
    simp only [bpMakeBigintFromUbig, length_append, length_replicate]
    omega
  obtain ⟨i, text, hok, -⟩ := h _ hcanon
  rw [bpWriteBigintToStr_eq hb hbig (by decide), Int.natAbs_natCast, if_neg (by omega)] at hok
  cases hok

end Picat
