import Mathlib.Data.Nat.Digits.Lemmas
import Mathlib.Data.List.DropRight
import Mathlib.Data.Nat.Bitwise
import Mathlib.Data.Int.Bitwise

/-!
# Digit lists in a base

A natural number as a little-endian list of digits, read with `Nat.ofDigits b`.

* `ofDigits_complement` : the digitwise complement `b - 1 - d`.
-/

namespace Digits

open List

def Valid (b : Nat) (ds : List Nat) : Prop := ∀ d ∈ ds, d < b

def Stripped (ds : List Nat) : Prop := ∀ h : ds ≠ [], ds.getLast h ≠ 0

section
variable {b : Nat} {ds es : List Nat}

/-! ## Valid lists -/

theorem Valid.nil : Valid b [] := by simp [Valid]

theorem valid_cons {d : Nat} : Valid b (d :: ds) ↔ d < b ∧ Valid b ds := by simp [Valid]

theorem valid_append : Valid b (ds ++ es) ↔ Valid b ds ∧ Valid b es := by
  constructor
  · intro h
    exact ⟨fun d hd => h d (by simp [hd]), fun d hd => h d (by simp [hd])⟩
  · rintro ⟨h1, h2⟩ d hd
    rcases mem_append.1 hd with hd | hd
    · exact h1 d hd
    · exact h2 d hd

theorem Valid.take (h : Valid b ds) (n : Nat) : Valid b (ds.take n) :=
  fun d hd => h d (mem_of_mem_take hd)

theorem Valid.drop (h : Valid b ds) (n : Nat) : Valid b (ds.drop n) :=
  fun d hd => h d (mem_of_mem_drop hd)

theorem Valid.initial (h : Valid b ds) (he : es <+: ds) : Valid b es :=
  fun d hd => h d (he.subset hd)

theorem Valid.getElem (h : Valid b ds) {i : Nat} (hi : i < ds.length) : ds[i] < b :=
  h _ (getElem_mem hi)

theorem Valid.replicate_zero (hb : 0 < b) (n : Nat) : Valid b (List.replicate n 0) := by
  intro d hd
  rw [eq_of_mem_replicate hd]
  exact hb

theorem ofDigits_take_add_drop (b : Nat) (ds : List Nat) {n : Nat} (hn : n ≤ ds.length) :
    Nat.ofDigits b (ds.take n) + b ^ n * Nat.ofDigits b (ds.drop n) = Nat.ofDigits b ds := by
  conv_rhs => rw [← take_append_drop n ds]
  rw [Nat.ofDigits_append, length_take, Nat.min_eq_left hn]

theorem ofDigits_take_succ (b : Nat) (ds : List Nat) {n : Nat} (hn : n < ds.length) :
    Nat.ofDigits b (ds.take (n + 1)) = Nat.ofDigits b (ds.take n) + b ^ n * ds[n] := by
  rw [take_succ_eq_append_getElem hn, Nat.ofDigits_append, Nat.ofDigits_singleton,
    length_take, Nat.min_eq_left (le_of_lt hn)]

theorem ofDigits_cons_carry {z c c' c'' s S n : Nat} {zs : List Nat} (h0 : z + b * c' = s + c)
    (hs : Nat.ofDigits b zs + b ^ n * c'' = S + c') :
    Nat.ofDigits b (z :: zs) + b ^ (n + 1) * c'' = s + b * S + c := by
  have hb := congrArg (b * ·) hs
  simp only [Nat.ofDigits_cons, pow_succ', mul_add, mul_assoc] at hb ⊢
  omega

theorem ofDigits_cons_borrow {z c c' c'' s t S T n : Nat} {zs : List Nat} (h0 : z + s + c = t + b * c')
    (hs : Nat.ofDigits b zs + S + c' = T + b ^ n * c'') :
    Nat.ofDigits b (z :: zs) + (s + b * S) + c = t + b * T + b ^ (n + 1) * c'' := by
  have hb := congrArg (b * ·) hs
  simp only [Nat.ofDigits_cons, pow_succ', mul_add, mul_assoc] at hb ⊢
  omega

/-! ## Bounds -/

section
variable (hb : 1 < b)
include hb

theorem ofDigits_lt_pow (h : Valid b ds) : Nat.ofDigits b ds < b ^ ds.length :=
  Nat.ofDigits_lt_base_pow_length hb h

theorem pow_le_ofDigits (hn : Stripped ds) (hne : ds ≠ []) : b ^ (ds.length - 1) ≤ Nat.ofDigits b ds := by
  obtain ⟨c, rfl⟩ : ∃ c, b = c + 2 := ⟨b - 2, by omega⟩
  have h := Nat.pow_length_le_mul_ofDigits (b := c) hne (hn hne)
  have hl : 0 < ds.length := length_pos_of_ne_nil hne
  have hs : (c + 2) ^ ds.length = (c + 2) * (c + 2) ^ (ds.length - 1) := by
    rw [← pow_succ']
    congr 1
    omega
  rw [hs] at h
  exact Nat.le_of_mul_le_mul_left h (by omega)

theorem ofDigits_pos (hn : Stripped ds) (hne : ds ≠ []) : 0 < Nat.ofDigits b ds :=
  lt_of_lt_of_le (Nat.pow_pos (by omega)) (pow_le_ofDigits hb hn hne)

theorem Stripped.ofDigits_eq_zero (hn : Stripped ds) : Nat.ofDigits b ds = 0 ↔ ds = [] := by
  constructor
  · intro h
    by_contra hne
    have := ofDigits_pos hb hn hne
    omega
  · rintro rfl
    rfl

theorem length_le_of_ofDigits_le (hd : Stripped ds) (he : Valid b es)
    (h : Nat.ofDigits b ds ≤ Nat.ofDigits b es) : ds.length ≤ es.length := by
  by_cases hne : ds = []
  · simp [hne]
  · have h1 := pow_le_ofDigits hb hd hne
    have h2 := ofDigits_lt_pow hb he
    have := (Nat.pow_lt_pow_iff_right hb).1 (lt_of_le_of_lt (le_trans h1 h) h2)
    omega

theorem ofDigits_lt_of_length_lt (hd : Valid b ds) (he : Stripped es)
    (h : ds.length < es.length) : Nat.ofDigits b ds < Nat.ofDigits b es := by
  by_contra hc
  have := length_le_of_ofDigits_le hb he hd (Nat.le_of_not_lt hc)
  omega

theorem stripped_of_pow_le (hd : Valid b ds) (h : b ^ (ds.length - 1) ≤ Nat.ofDigits b ds) : Stripped ds := by
  intro hne hz
  have hs : ds.dropLast ++ [0] = ds := by
    rw [← hz]
    exact dropLast_append_getLast hne
  have hlt := ofDigits_lt_pow hb (hd.initial ( dropLast_prefix ds))
  rw [length_dropLast, ← Nat.ofDigits_append_zero, hs] at hlt
  omega

theorem Stripped.ext (hd : Valid b ds) (hdn : Stripped ds) (he : Valid b es) (hen : Stripped es)
    (h : Nat.ofDigits b ds = Nat.ofDigits b es) : ds = es := by
  rw [← Nat.digits_ofDigits b hb ds hd hdn, ← Nat.digits_ofDigits b hb es he hen, h]

theorem valid_digits (n : Nat) : Valid b (b.digits n) :=
  fun _ hd => Nat.digits_lt_base hb hd

end

theorem stripped_digits (b n : Nat) : Stripped (b.digits n) :=
  fun h => Nat.getLast_digit_ne_zero b (Nat.digits_ne_nil_iff_ne_zero.1 h)

/-! ## Leading zeros -/

theorem stripped_append_singleton {d : Nat} : Stripped (ds ++ [d]) ↔ d ≠ 0 := by
  simp [Stripped]

theorem ofDigits_rdropWhile (b : Nat) (ds : List Nat) :
    Nat.ofDigits b (ds.rdropWhile (· == 0)) = Nat.ofDigits b ds := by
  induction ds using List.reverseRecOn with
  | nil => rfl
  | append_singleton ds d ih =>
    by_cases hd : d = 0
    · rw [rdropWhile_concat_pos _ _ _ (by simp [hd]), ih, hd, Nat.ofDigits_append_zero]
    · rw [rdropWhile_concat_neg _ _ _ (by simp [hd])]

theorem stripped_rdropWhile (ds : List Nat) : Stripped (ds.rdropWhile (· == 0)) := by
  intro h
  simpa using rdropWhile_last_not (· == 0) ds h

theorem Valid.rdropWhile (h : Valid b ds) (p : Nat → Bool) : Valid b (ds.rdropWhile p) :=
  h.initial ( rdropWhile_prefix p ds)

theorem valid_complement (hb : 0 < b) (ds : List Nat) : Valid b (ds.map (b - 1 - ·)) := by
  intro d hd
  obtain ⟨e, _, rfl⟩ := mem_map.1 hd
  omega

theorem ofDigits_complement (h : Valid b ds) :
    Nat.ofDigits b (ds.map (b - 1 - ·)) + Nat.ofDigits b ds + 1 = b ^ ds.length := by
  induction ds with
  | nil => simp
  | cons d ds ih =>
    obtain ⟨hd, hds⟩ := valid_cons.1 h
    have hs : b - 1 - d + d + 1 = b := by omega
    calc Nat.ofDigits b ((d :: ds).map (b - 1 - ·)) + Nat.ofDigits b (d :: ds) + 1
        = (b - 1 - d + d + 1) + b * (Nat.ofDigits b (ds.map (b - 1 - ·)) + Nat.ofDigits b ds) := by
          rw [map_cons, Nat.ofDigits_cons, Nat.ofDigits_cons]
          ring
      _ = b * (Nat.ofDigits b (ds.map (b - 1 - ·)) + Nat.ofDigits b ds + 1) := by
          rw [hs]
          ring
      _ = b ^ (d :: ds).length := by
          rw [ih hds, length_cons, pow_succ']

end

theorem testBit_ofDigits_cons {k d : Nat} (hd : d < 2 ^ k) (ds : List Nat) (i : Nat) :
    (Nat.ofDigits (2 ^ k) (d :: ds)).testBit i =
      if i < k then d.testBit i else (Nat.ofDigits (2 ^ k) ds).testBit (i - k) := by
  rw [Nat.ofDigits_cons, Nat.add_comm]
  exact Nat.testBit_two_pow_mul_add _ hd i

end Digits

/-! # Numbers as lists of bits, the lowest first -/

namespace BitLists

open List

def value (l : List Bool) : ℕ := Nat.ofDigits 2 (l.map Bool.toNat)

def bitsOf (n x : ℕ) : List Bool := (List.range n).map x.testBit

section
variable {l l' : List Bool}

theorem value_nil : value [] = 0 := rfl

theorem value_cons (b : Bool) (l : List Bool) : value (b :: l) = b.toNat + 2 * value l := Nat.ofDigits_cons

theorem value_append (l l' : List Bool) : value (l ++ l') = value l + 2 ^ l.length * value l' := by
  unfold value
  rw [List.map_append, Nat.ofDigits_append, length_map]

theorem value_concat (l : List Bool) (b : Bool) : value (l ++ [b]) = value l + 2 ^ l.length * b.toNat := by
  rw [value_append]
  rfl

theorem value_lt (l : List Bool) : value l < 2 ^ l.length := by
  have hlt := Nat.ofDigits_lt_base_pow_length (l := l.map Bool.toNat) one_lt_two fun d hd => ?_
  · rw [length_map] at hlt
    exact hlt
  · obtain ⟨b, -, rfl⟩ := mem_map.1 hd
    exact Bool.toNat_lt b

theorem testBit_value (l : List Bool) (i : ℕ) : (value l).testBit i = l.getD i false := by
  induction l generalizing i with
  | nil => exact Nat.zero_testBit i
  | cons b l ih =>
    have hcons := Digits.testBit_ofDigits_cons (k := 1) (d := b.toNat) (Bool.toNat_lt b) (l.map Bool.toNat) i
    change (value (b :: l)).testBit i = _ at hcons
    rw [hcons]
    cases i with
    | zero =>
      rw [if_pos Nat.one_pos]
      cases b <;> rfl
    | succ i =>
      rw [if_neg (by omega), Nat.add_sub_cancel, getD_cons_succ]
      exact ih i

theorem getD_bitsOf (n x i : ℕ) : (bitsOf n x).getD i false = (decide (i < n) && x.testBit i) := by
  unfold bitsOf
  by_cases hi : i < n
  · rw [getD_eq_getElem _ _ (by rwa [length_map, length_range]), getElem_map, getElem_range,
      decide_eq_true hi, Bool.true_and]
  · rw [getD_eq_default _ _ (by rw [length_map, length_range]; omega), decide_eq_false hi, Bool.false_and]

theorem value_bitsOf (n x : ℕ) : value (bitsOf n x) = x % 2 ^ n := by
  apply Nat.eq_of_testBit_eq
  intro i
  rw [testBit_value, getD_bitsOf, Nat.testBit_mod_two_pow]

end

end BitLists

/-! # Two's complement words -/

namespace TwosComplement
open Digits

def word (w : Nat) (x : Int) : Nat := (x % 2 ^ (w + 1)).toNat

def signed (w : Nat) (z : Nat) : Int := if z < 2 ^ w then z else (z : Int) - 2 ^ (w + 1)

/-- In the infinite two's complement expansions every bit of `r` is `f` of the bits of `x` and `y`. -/
def IsBitwise (f : Bool → Bool → Bool) (x y r : Int) : Prop :=
  ∀ i, r.testBit i = f (x.testBit i) (y.testBit i)

section
variable {w : Nat} {x y : Int}

theorem word_of_nonneg (h0 : 0 ≤ x) (h1 : x < 2 ^ w) : (word w x : Int) = x := by
  have hp : (2 : Int) ^ (w + 1) = 2 ^ w * 2 := pow_succ 2 w
  rw [word, Int.emod_eq_of_lt h0 (by omega), Int.toNat_of_nonneg h0]

theorem word_of_neg (h0 : x < 0) (h1 : -2 ^ w ≤ x) : (word w x : Int) = x + 2 ^ (w + 1) := by
  have hp : (2 : Int) ^ (w + 1) = 2 ^ w * 2 := pow_succ 2 w
  have hpos : (0 : Int) < 2 ^ w := Int.pow_pos (by decide)
  have he : x % 2 ^ (w + 1) = x + 2 ^ (w + 1) := by
    rw [← Int.add_emod_right, Int.emod_eq_of_lt (by omega) (by omega)]
  rw [word, he, Int.toNat_of_nonneg (by omega)]

theorem word_lt (w : Nat) (x : Int) : word w x < 2 ^ (w + 1) := by
  have hpos : (0 : Int) < 2 ^ (w + 1) := Int.pow_pos (by decide)
  have h1 := Int.emod_lt_of_pos x hpos
  have h2 := Int.emod_nonneg x (ne_of_gt hpos)
  have h3 : ((2 ^ (w + 1) : Nat) : Int) = 2 ^ (w + 1) := by push_cast; rfl
  unfold word
  omega

theorem signed_word (h0 : -2 ^ w ≤ x) (h1 : x < 2 ^ w) : signed w (word w x) = x := by
  have hp : (2 : Int) ^ (w + 1) = 2 ^ w * 2 := pow_succ 2 w
  have hc : ((2 ^ w : Nat) : Int) = 2 ^ w := by push_cast; rfl
  unfold signed
  by_cases h : 0 ≤ x
  · have hw := word_of_nonneg h h1
    rw [if_pos (by omega), hw]
  · have hw := word_of_neg (by omega) h0
    rw [if_neg (by omega), hw]
    omega

/-- The bits of a word's integer: those of the word, and from the sign bit on the sign bit. -/
theorem testBit_signed {z : Nat} (hz : z < 2 ^ (w + 1)) (i : Nat) : (signed w z).testBit i = z.testBit (min i w) := by
  unfold signed
  split_ifs with h
  · show Nat.testBit z i = _
    rcases Nat.lt_or_ge i w with hi | hi
    · rw [Nat.min_eq_left (le_of_lt hi)]
    · rw [Nat.min_eq_right hi, Nat.testBit_lt_two_pow h,
        Nat.testBit_lt_two_pow (lt_of_lt_of_le h (Nat.pow_le_pow_right (by decide) hi))]
  · have hneg : (z : Int) - 2 ^ (w + 1) = Int.negSucc (2 ^ (w + 1) - (z + 1)) := by
      have hc : ((2 ^ (w + 1) : Nat) : Int) = 2 ^ (w + 1) := by push_cast; rfl
      rw [Int.negSucc_eq]
      omega
    rw [hneg]
    show (!Nat.testBit (2 ^ (w + 1) - (z + 1)) i) = _
    rw [Nat.testBit_two_pow_sub_succ hz]
    have htop : z.testBit w = true := by
      apply Nat.testBit_of_two_pow_le_and_two_pow_add_one_gt (by omega)
      exact hz
    rcases Nat.lt_or_ge i (w + 1) with hi | hi
    · simp [hi, Nat.min_eq_left (Nat.le_of_lt_succ hi)]
    · rw [Nat.min_eq_right (by omega), htop]
      simp [Nat.not_lt.2 hi]

theorem testBit_eq_word (h0 : -2 ^ w ≤ x) (h1 : x < 2 ^ w) (i : Nat) : x.testBit i = (word w x).testBit (min i w) := by
  rw [← testBit_signed (word_lt w x), signed_word h0 h1]

theorem isBitwise_signed {f : Bool → Bool → Bool} (hf : f false false = false) (hx0 : -2 ^ w ≤ x)
    (hx1 : x < 2 ^ w) (hy0 : -2 ^ w ≤ y) (hy1 : y < 2 ^ w) :
    IsBitwise f x y (signed w (Nat.bitwise f (word w x) (word w y))) := by
  intro i
  rw [testBit_signed (Nat.bitwise_lt_two_pow (word_lt w x) (word_lt w y)), Nat.testBit_bitwise hf,
    ← testBit_eq_word hx0 hx1, ← testBit_eq_word hy0 hy1]

end

theorem toInt_eq_signed {w : Nat} (b : BitVec (w + 1)) : b.toInt = signed w b.toNat := by
  have hp : 2 ^ (w + 1) = 2 ^ w * 2 := pow_succ 2 w
  have hc : ((2 ^ (w + 1) : Nat) : Int) = 2 ^ (w + 1) := by push_cast; rfl
  rw [BitVec.toInt_eq_toNat_cond, signed, hc]
  split_ifs <;> first | rfl | omega

theorem toNat_ofInt_eq_word (w : Nat) (x : Int) : (BitVec.ofInt (w + 1) x).toNat = word w x := by
  have hc : ((2 ^ (w + 1) : Nat) : Int) = 2 ^ (w + 1) := by push_cast; rfl
  rw [BitVec.toNat_ofInt, hc, word]

section
variable {w a b : Nat}

/-! ## The sign bit of a combination -/

section
variable (ha : a < 2 ^ w) (hb : b < 2 ^ w)
include ha hb

theorem and_sign_sign : (2 ^ w + a) &&& (2 ^ w + b) = 2 ^ w + (a &&& b) := by
  have h1 : ∀ c, 2 ^ w + c = 2 ^ w * 1 + c := fun c => by rw [mul_one]
  apply Nat.eq_of_testBit_eq
  intro i
  rw [Nat.testBit_and, h1, h1 b, h1 (a &&& b), Nat.testBit_two_pow_mul_add _ ha, Nat.testBit_two_pow_mul_add _ hb,
    Nat.testBit_two_pow_mul_add _ (Nat.and_lt_two_pow a hb), Nat.testBit_and]
  split_ifs
  · rfl
  · rw [Bool.and_self]

theorem xor_sign_left : (2 ^ w + a) ^^^ b = 2 ^ w + (a ^^^ b) := by
  have h1 : ∀ c, 2 ^ w + c = 2 ^ w * 1 + c := fun c => by rw [mul_one]
  have h0 : b = 2 ^ w * 0 + b := by omega
  apply Nat.eq_of_testBit_eq
  intro i
  rw [Nat.testBit_xor, h1, h1 (a ^^^ b), Nat.testBit_two_pow_mul_add _ ha,
    Nat.testBit_two_pow_mul_add _ (Nat.xor_lt_two_pow ha hb), Nat.testBit_xor]
  conv_lhs => rw [h0]
  rw [Nat.testBit_two_pow_mul_add _ hb]
  split_ifs
  · rfl
  · rw [Nat.zero_testBit, Bool.xor_false]

theorem xor_sign_sign : (2 ^ w + a) ^^^ (2 ^ w + b) = a ^^^ b := by
  have hsplit : ∀ c, c < 2 ^ w → 2 ^ w + c = 2 ^ w ^^^ c := by
    intro c hc
    have h := xor_sign_left (Nat.two_pow_pos w) hc
    rw [Nat.add_zero, Nat.zero_xor] at h
    exact h.symm
  rw [hsplit a ha, hsplit b hb, Nat.xor_comm (2 ^ w) a, Nat.xor_assoc, ← Nat.xor_assoc (2 ^ w), Nat.xor_self,
    Nat.zero_xor]

end

end

theorem testBit_complement (x : Int) (i : Nat) : (-x - 1).testBit i = !x.testBit i := by
  cases x with
  | ofNat n =>
    rw [show -(Int.ofNat n) - 1 = Int.negSucc n by rw [Int.negSucc_eq, Int.ofNat_eq_natCast]; omega]
    rfl
  | negSucc n =>
    rw [show -(Int.negSucc n) - 1 = Int.ofNat n by rw [Int.negSucc_eq, Int.ofNat_eq_natCast]; omega]
    show Nat.testBit n i = !(!Nat.testBit n i)
    rw [Bool.not_not]

def WideTop (b : Nat) (ds : List Nat) : Prop := Valid b ds.dropLast

/-- Numbers of the same length combined digit by digit. The top digits may be wider than the base. -/
theorem ofDigits_zipWith_bitwise {k : Nat} {f : Bool → Bool → Bool} (hf : f false false = false) :
    ∀ (x y : List Nat), x.length = y.length → WideTop (2 ^ k) x → WideTop (2 ^ k) y →
      Nat.ofDigits (2 ^ k) (List.zipWith (Nat.bitwise f) x y) =
        Nat.bitwise f (Nat.ofDigits (2 ^ k) x) (Nat.ofDigits (2 ^ k) y)
  | [], [], _, _, _ => by simp
  | [a], [b], _, _, _ => by simp
  | a :: c :: x, b :: d :: y, hl, hx, hy => by
    obtain ⟨ha, hx'⟩ : a < 2 ^ k ∧ WideTop (2 ^ k) (c :: x) := valid_cons.1 hx
    obtain ⟨hb, hy'⟩ : b < 2 ^ k ∧ WideTop (2 ^ k) (d :: y) := valid_cons.1 hy
    have ih := ofDigits_zipWith_bitwise hf (c :: x) (d :: y) (by simpa using hl) hx' hy'
    apply Nat.eq_of_testBit_eq
    intro i
    rw [List.zipWith_cons_cons, testBit_ofDigits_cons (Nat.bitwise_lt_two_pow ha hb), ih,
      Nat.testBit_bitwise hf, Nat.testBit_bitwise hf, Nat.testBit_bitwise hf, testBit_ofDigits_cons ha,
      testBit_ofDigits_cons hb]
    split_ifs <;> rfl
  | [_], _ :: _ :: _, hl, _, _ => by simp at hl
  | _ :: _ :: _, [_], hl, _, _ => by simp at hl
  | [], _ :: _, hl, _, _ => by simp at hl
  | _ :: _, [], hl, _, _ => by simp at hl

end TwosComplement
