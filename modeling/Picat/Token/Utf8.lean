import Picat.Token.Quoted

/-!
# UTF-8 texts

The encoder, the decoder and the counter of UTF-8 characters, each with masks of its own, and the list of codes of a
text. A text is the bytes from a pointer on, its NUL included, and a read outside it is `none`.

* `utf8_roundTrip` : encoding, then decoding and counting.
-/

namespace Picat
open Simulation List

/-! ## Readers -/

/-- `*s++`. -/
def nextChar : List UInt8 → Option (Int × List UInt8)
  | [] => none
  | b :: s => some (toCHAR b.toNat, s)

/-- A byte `b` of a sequence is read from `s`; where the sequence does not go on, the reader returns `back`, with the
text before the bytes that it has read. -/
def continued {α : Type} (s : List UInt8) (back : α) (f : Int → List UInt8 → Option α) : Option α := do
  let (b, s) ← nextChar s
  if isContinuation b then f b s else pure back

/-- `utf8_char_to_codepoint` after the byte `c`: the code, and the text from the new `*s_ptr` on. -/
def utf8Decode (c : Int) (s : List UInt8) : Option (Int × List UInt8) :=
  if lowByte c &&& 0x80 = 0 then pure (c, s)
  else if lowByte c &&& 0xe0 = 0xc0 then
    continued s (c, s) fun b2 s2 => pure (((lowByte c &&& 0x1f) <<< 6 ||| (lowByte b2 &&& 0x3f) : Nat), s2)
  else if lowByte c &&& 0xf0 = 0xe0 then
    continued s (c, s) fun b2 s2 => continued s2 (c, s) fun b3 s3 =>
      pure (((lowByte c &&& 0xf) <<< 12 ||| (lowByte b2 &&& 0x3f) <<< 6 ||| (lowByte b3 &&& 0x3f) : Nat), s3)
  else if lowByte c &&& 0xf8 = 0xf0 then
    continued s (c, s) fun b2 s2 => continued s2 (c, s) fun b3 s3 => continued s3 (c, s) fun b4 s4 =>
      pure (((lowByte c &&& 0xf) <<< 18 ||| (lowByte b2 &&& 0x3f) <<< 12 ||| (lowByte b3 &&& 0x3f) <<< 6 |||
        (lowByte b4 &&& 0x3f) : Nat), s4)
  else pure (c, s)

def utf8CharToCodepoint (s : List UInt8) : Option (Int × List UInt8) := do
  let (c, s) ← nextChar s
  utf8Decode c s

/-- The loop body of `utf8_nchars` after the byte `c`: where the next character begins. -/
def utf8SkipChar (c : Int) (s : List UInt8) : Option (List UInt8) :=
  if lowByte c &&& 0x80 = 0 then pure s
  else if lowByte c &&& 0xe0 = 0xc0 then continued s s fun _ s2 => pure s2
  else if lowByte c &&& 0xf0 = 0xe0 then
    continued s s fun _ s2 => continued s2 s fun _ s3 => pure s3
  else if lowByte c &&& 0xf8 = 0xf0 then
    continued s s fun _ s2 => continued s2 s fun _ s3 => continued s3 s fun _ s4 => pure s4
  else pure s

/-- `utf8_nchars`, which has at most `fuel` rounds. -/
def utf8NcharsFrom : Nat → Nat → List UInt8 → Option Nat
  | 0, _, _ => none
  | fuel + 1, count, s => do
    let (c, s1) ← nextChar s
    if c = 0 then pure count
    else
      let s2 ← utf8SkipChar c s1
      utf8NcharsFrom fuel (count + 1) s2

def utf8Nchars (s : List UInt8) : Option Nat := utf8NcharsFrom s.length 0 s

/-- `utf8_char_to_codepoint` until `*s == '\0'`, at most `fuel` times. -/
def codepointsFrom : Nat → List UInt8 → Option (List Int)
  | 0, _ => none
  | fuel + 1, s => do
    let (c, _) ← nextChar s
    if c = 0 then pure []
    else
      let (code, s) ← utf8CharToCodepoint s
      let codes ← codepointsFrom fuel s
      pure (code :: codes)

def codepoints (s : List UInt8) : Option (List Int) := codepointsFrom s.length s

variable {σ : Type}

/-- A character of a source, with `utf8_getc` where a sequence begins. -/
def utf8Char (src : Source σ) (back2 : Int → Bool) : Scan σ Int := do
  let c ← src.getc
  if lowByte c &&& 0x80 ≠ 0 then utf8Sequence src back2 c else pure c

/-- `k` characters of a source. -/
def utf8Chars (src : Source σ) (back2 : Int → Bool) : Nat → Scan σ (List Int)
  | 0 => pure []
  | k + 1 => do
    let c ← utf8Char src back2
    let cs ← utf8Chars src back2 k
    pure (c :: cs)

/-! ## Bytes -/

theorem lowByte_byte (b : UInt8) : lowByte b.toNat = b.toNat := by
  have hb := b.toNat_lt
  unfold lowByte
  omega

theorem lowByte_toCHAR (b : UInt8) : lowByte (toCHAR b.toNat) = b.toNat := by
  have hmod : toCHAR b.toNat % 256 = (b.toNat : Int) % 256 := Int.bmod_emod
  rw [lowByte, hmod]
  exact lowByte_byte b

theorem toCHAR_zero : toCHAR (0 : UInt8).toNat = 0 := by decide

theorem toCHAR_ne_zero {b : UInt8} (h : b ≠ 0) : toCHAR b.toNat ≠ 0 := by
  intro hc
  apply h
  rw [← UInt8.toNat_inj, ← lowByte_toCHAR b, hc]
  decide

theorem isContinuation_nul : isContinuation (toCHAR (0 : UInt8).toNat) = false := by decide

/-! ## The NUL -/

theorem continued_cons {α : Type} (b : UInt8) (s : List UInt8) (back : α) (f : Int → List UInt8 → Option α) :
    continued (b :: s) back f = if isContinuation (toCHAR b.toNat) then f (toCHAR b.toNat) s else some back := by
  simp only [continued, nextChar, Option.bind_eq_bind, Option.bind_some]
  rfl

/-- What is left when a reader of the text `t` and its NUL returns begins in `t` or at the NUL. -/
def Within {α : Type} (t : List UInt8) (rest : α → List UInt8) (m : Option α) : Prop :=
  ∃ a, m = some a ∧ ∃ t', t' <:+ t ∧ rest a = t' ++ [0]

namespace Within

variable {α : Type} {t r : List UInt8} {rest : α → List UInt8}

theorem pure {a : α} (h : rest a = r ++ [0]) (hr : r <:+ t) : Within t rest (some a) := ⟨a, rfl, r, hr, h⟩

theorem continued {a : α} {f : Int → List UInt8 → Option α} (hr : r <:+ t) (ha : Within t rest (some a))
    (hf : ∀ b r', r' <:+ t → Within t rest (f b (r' ++ [0]))) : Within t rest (continued (r ++ [0]) a f) := by
  cases r with
  | nil =>
    rw [nil_append, continued_cons, isContinuation_nul]
    exact ha
  | cons b r =>
    rw [cons_append, continued_cons]
    split_ifs
    · exact hf _ r ((suffix_cons b r).trans hr)
    · exact ha

end Within

theorem utf8Decode_within (c : Int) (t : List UInt8) : Within t Prod.snd (utf8Decode c (t ++ [0])) := by
  have hback : Within t Prod.snd (some (c, t ++ [0])) := Within.pure rfl suffix_rfl
  unfold utf8Decode
  split_ifs
  · exact hback
  · apply Within.continued suffix_rfl hback
    exact fun b2 r hr => Within.pure rfl hr
  · apply Within.continued suffix_rfl hback
    intro b2 r hr
    apply Within.continued hr hback
    exact fun b3 r hr => Within.pure rfl hr
  · apply Within.continued suffix_rfl hback
    intro b2 r hr
    apply Within.continued hr hback
    intro b3 r hr
    apply Within.continued hr hback
    exact fun b4 r hr => Within.pure rfl hr
  · exact hback

theorem utf8SkipChar_within (c : Int) (t : List UInt8) : Within t id (utf8SkipChar c (t ++ [0])) := by
  have hback : Within t id (some (t ++ [0])) := Within.pure rfl suffix_rfl
  unfold utf8SkipChar
  split_ifs
  · exact hback
  · apply Within.continued suffix_rfl hback
    exact fun _ r hr => Within.pure rfl hr
  · apply Within.continued suffix_rfl hback
    intro _ r hr
    apply Within.continued hr hback
    exact fun _ r hr => Within.pure rfl hr
  · apply Within.continued suffix_rfl hback
    intro _ r hr
    apply Within.continued hr hback
    intro _ r hr
    apply Within.continued hr hback
    exact fun _ r hr => Within.pure rfl hr
  · exact hback

section
variable (fuel count : Nat) (b : UInt8) (s : List UInt8)

theorem utf8NcharsFrom_cons : utf8NcharsFrom (fuel + 1) count (b :: s) = if toCHAR b.toNat = 0 then some count else
      (utf8SkipChar (toCHAR b.toNat) s).bind (utf8NcharsFrom fuel (count + 1)) := by
  simp only [utf8NcharsFrom, nextChar, Option.bind_eq_bind, Option.bind_some]
  rfl

theorem utf8NcharsFrom_nul : utf8NcharsFrom (fuel + 1) count [0] = some count := by
  rw [utf8NcharsFrom_cons, if_pos toCHAR_zero]

theorem codepointsFrom_cons : codepointsFrom (fuel + 1) (b :: s) = if toCHAR b.toNat = 0 then some [] else
      (utf8Decode (toCHAR b.toNat) s).bind fun r => (codepointsFrom fuel r.2).bind fun codes => some (r.1 :: codes) := by
  simp only [codepointsFrom, utf8CharToCodepoint, nextChar, Option.bind_eq_bind, Option.bind_some]
  split_ifs <;> rfl

theorem codepointsFrom_nul : codepointsFrom (fuel + 1) [0] = some [] := by
  rw [codepointsFrom_cons, if_pos toCHAR_zero]

end

theorem exists_utf8NcharsFrom : ∀ (fuel count : Nat) (t : List UInt8), t.length < fuel →
    ∃ n, utf8NcharsFrom fuel count (t ++ [0]) = some n := by
  intro fuel
  induction fuel with
  | zero => exact fun _ _ h => absurd h (Nat.not_lt_zero _)
  | succ fuel ih =>
    intro count t ht
    cases t with
    | nil => exact ⟨count, utf8NcharsFrom_nul fuel count⟩
    | cons b t =>
      rw [cons_append, utf8NcharsFrom_cons]
      split_ifs
      · exact ⟨count, rfl⟩
      · obtain ⟨s, hs, t', hsuffix, hst⟩ := utf8SkipChar_within (toCHAR b.toNat) t
        rw [hs, Option.bind_some, show s = t' ++ [0] from hst]
        have hlen := hsuffix.length_le
        rw [length_cons] at ht
        exact ih (count + 1) t' (by omega)

theorem exists_codepointsFrom : ∀ (fuel : Nat) (t : List UInt8), t.length < fuel →
    ∃ codes, codepointsFrom fuel (t ++ [0]) = some codes := by
  intro fuel
  induction fuel with
  | zero => exact fun _ h => absurd h (Nat.not_lt_zero _)
  | succ fuel ih =>
    intro t ht
    cases t with
    | nil => exact ⟨[], codepointsFrom_nul fuel⟩
    | cons b t =>
      rw [cons_append, codepointsFrom_cons]
      split_ifs
      · exact ⟨[], rfl⟩
      · obtain ⟨⟨code, s⟩, hs, t', hsuffix, hst⟩ := utf8Decode_within (toCHAR b.toNat) t
        have hlen := hsuffix.length_le
        rw [length_cons] at ht
        obtain ⟨codes, hcodes⟩ := ih t' (by omega)
        rw [hs, Option.bind_some, show s = t' ++ [0] from hst, hcodes]
        exact ⟨code :: codes, rfl⟩

/-! ## Characters by their bytes -/

/-- The bytes of the character `cp`, by what the masks let through. -/
inductive Shape : Int → List UInt8 → Prop
  | one {b : UInt8} (h : b.toNat < 128) (h0 : b ≠ 0) : Shape b.toNat [b]
  | two {b b2 : UInt8} (h : b.toNat / 32 = 6) (h2 : b2.toNat / 64 = 2) :
    Shape (b.toNat % 32 * 64 + b2.toNat % 64 : Nat) [b, b2]
  | three {b b2 b3 : UInt8} (h : b.toNat / 16 = 14) (h2 : b2.toNat / 64 = 2) (h3 : b3.toNat / 64 = 2) :
    Shape (b.toNat % 16 * 4096 + b2.toNat % 64 * 64 + b3.toNat % 64 : Nat) [b, b2, b3]
  | four {b b2 b3 b4 : UInt8} (h : b.toNat / 8 = 30) (h2 : b2.toNat / 64 = 2) (h3 : b3.toNat / 64 = 2)
    (h4 : b4.toNat / 64 = 2) :
    Shape (b.toNat % 16 * 262144 + b2.toNat % 64 * 4096 + b3.toNat % 64 * 64 + b4.toNat % 64 : Nat) [b, b2, b3, b4]

def utf8Bytes (cp : Int) : List UInt8 := (utf8CodepointToStr cp).map toBYTE

theorem toBYTE_natCast (n : Nat) : toBYTE n = UInt8.ofNat n := by
  have hmod : ((n : Int) % 256).toNat = n % 256 := by omega
  rw [toBYTE, hmod, ← UInt8.toNat_inj, UInt8.toNat_ofNat', UInt8.toNat_ofNat', Nat.mod_mod]

theorem utf8Bytes_natCast (n : Nat) :
    utf8Bytes n = (if n < 0x80 then [n] else if n < 0x800 then [192 + n / 64, 128 + n % 64]
      else if n < 0x10000 then [224 + n / 4096, 128 + n / 64 % 64, 128 + n % 64]
      else [240 + n / 262144, 128 + n / 4096 % 64, 128 + n / 64 % 64, 128 + n % 64]).map UInt8.ofNat := by
  have hdiv : ∀ k : Nat, (n : Int).tdiv (k : Int) = (n / k : Nat) := fun _ => rfl
  have hmod : ∀ m k : Nat, (m : Int).tmod (k : Int) = (m % k : Nat) := fun _ _ => rfl
  have hcode : utf8CodepointToStr n = (if n < 0x80 then [n] else if n < 0x800 then [192 + n / 64, 128 + n % 64]
      else if n < 0x10000 then [224 + n / 4096, 128 + n / 64 % 64, 128 + n % 64]
      else [240 + n / 262144, 128 + n / 4096 % 64, 128 + n / 64 % 64, 128 + n % 64]).map Nat.cast := by
    unfold utf8CodepointToStr
    rw [show (64 : Int) = (64 : Nat) from rfl, show (4096 : Int) = (4096 : Nat) from rfl,
      show (262144 : Int) = (262144 : Nat) from rfl, hdiv, hdiv, hdiv, hmod, hmod, hmod]
    split_ifs <;> first | omega | simp
  rw [utf8Bytes, hcode, map_map]
  exact map_congr_left fun k _ => toBYTE_natCast k

theorem shape_utf8Bytes {cp : Int} (h0 : 0 < cp) (h1 : cp ≤ 0x10FFFF) : Shape cp (utf8Bytes cp) := by
  obtain ⟨n, rfl⟩ := Int.eq_ofNat_of_zero_le h0.le
  have hbyte : ∀ k < 256, (UInt8.ofNat k).toNat = k := fun k hk => UInt8.toNat_ofNat_of_lt' hk
  have hn : n < 262144 * 8 := by omega
  rw [utf8Bytes_natCast]
  split_ifs with h2 h3 h4
  · have hb := hbyte n (by omega)
    have hne : UInt8.ofNat n ≠ 0 := by
      intro hnul
      rw [hnul, UInt8.toNat_zero] at hb
      omega
    have hshape := Shape.one (by omega) hne
    rwa [hb] at hshape
  · have hb := hbyte (192 + n / 64) (by omega)
    have hb2 := hbyte (128 + n % 64) (by omega)
    have hshape := Shape.two (by omega : (UInt8.ofNat (192 + n / 64)).toNat / 32 = 6)
      (by omega : (UInt8.ofNat (128 + n % 64)).toNat / 64 = 2)
    rwa [hb, hb2, show (192 + n / 64) % 32 * 64 + (128 + n % 64) % 64 = n by omega] at hshape
  · have hb := hbyte (224 + n / 4096) (by omega)
    have hb2 := hbyte (128 + n / 64 % 64) (by omega)
    have hb3 := hbyte (128 + n % 64) (by omega)
    have hshape := Shape.three (by omega : (UInt8.ofNat (224 + n / 4096)).toNat / 16 = 14)
      (by omega : (UInt8.ofNat (128 + n / 64 % 64)).toNat / 64 = 2)
      (by omega : (UInt8.ofNat (128 + n % 64)).toNat / 64 = 2)
    rwa [hb, hb2, hb3, show (224 + n / 4096) % 16 * 4096 + (128 + n / 64 % 64) % 64 * 64 + (128 + n % 64) % 64 = n by
      omega] at hshape
  · have hb := hbyte (240 + n / 262144) (by omega)
    have hb2 := hbyte (128 + n / 4096 % 64) (by omega)
    have hb3 := hbyte (128 + n / 64 % 64) (by omega)
    have hb4 := hbyte (128 + n % 64) (by omega)
    have hshape := Shape.four (by omega : (UInt8.ofNat (240 + n / 262144)).toNat / 8 = 30)
      (by omega : (UInt8.ofNat (128 + n / 4096 % 64)).toNat / 64 = 2)
      (by omega : (UInt8.ofNat (128 + n / 64 % 64)).toNat / 64 = 2)
      (by omega : (UInt8.ofNat (128 + n % 64)).toNat / 64 = 2)
    rwa [hb, hb2, hb3, hb4, show (240 + n / 262144) % 16 * 262144 + (128 + n / 4096 % 64) % 64 * 4096 +
      (128 + n / 64 % 64) % 64 * 64 + (128 + n % 64) % 64 = n by omega] at hshape

/-! ## The readers on characters -/

section
variable {n : Nat} (hn : n < 256)
include hn

theorem ascii_iff : n &&& 0x80 = 0 ↔ n < 128 := by
  have h : ∀ n < 256, n &&& 0x80 = 0 ↔ n < 128 := by decide +kernel
  exact h n hn

theorem lead2_iff : n &&& 0xe0 = 0xc0 ↔ n / 32 = 6 := by
  have h : ∀ n < 256, n &&& 0xe0 = 0xc0 ↔ n / 32 = 6 := by decide +kernel
  exact h n hn

theorem lead3_iff : n &&& 0xf0 = 0xe0 ↔ n / 16 = 14 := by
  have h : ∀ n < 256, n &&& 0xf0 = 0xe0 ↔ n / 16 = 14 := by decide +kernel
  exact h n hn

theorem lead4_iff : n &&& 0xf8 = 0xf0 ↔ n / 8 = 30 := by
  have h : ∀ n < 256, n &&& 0xf8 = 0xf0 ↔ n / 8 = 30 := by decide +kernel
  exact h n hn

theorem tail_iff : n &&& 0xc0 = 0x80 ↔ n / 64 = 2 := by
  have h : ∀ n < 256, n &&& 0xc0 = 0x80 ↔ n / 64 = 2 := by decide +kernel
  exact h n hn

end

theorem shiftLeft_or {a b k : Nat} (hb : b < 2 ^ k) : a <<< k ||| b = a * 2 ^ k + b := by
  rw [← Nat.shiftLeft_add_eq_or_of_lt hb, Nat.shiftLeft_eq]

theorem isContinuation_iff {c : Int} {b : UInt8} (h : lowByte c = b.toNat) :
    isContinuation c = true ↔ b.toNat / 64 = 2 := by
  rw [isContinuation, decide_eq_true_iff, h]
  exact tail_iff b.toNat_lt

section
variable (b b2 b3 b4 : UInt8)

theorem group2 : (b.toNat &&& 0x1f) <<< 6 ||| (b2.toNat &&& 0x3f) = b.toNat % 32 * 64 + b2.toNat % 64 := by
  have h2 : b2.toNat % 64 < 2 ^ 6 := by omega
  rw [Nat.and_two_pow_sub_one_eq_mod b.toNat 5, Nat.and_two_pow_sub_one_eq_mod b2.toNat 6]
  exact shiftLeft_or h2

theorem group3 : (b.toNat &&& 0xf) <<< 12 ||| (b2.toNat &&& 0x3f) <<< 6 ||| (b3.toNat &&& 0x3f) =
    b.toNat % 16 * 4096 + b2.toNat % 64 * 64 + b3.toNat % 64 := by
  have h3 : b3.toNat % 64 < 2 ^ 6 := by omega
  have htail : b2.toNat % 64 * 2 ^ 6 + b3.toNat % 64 < 2 ^ 12 := by omega
  rw [Nat.and_two_pow_sub_one_eq_mod b.toNat 4, Nat.and_two_pow_sub_one_eq_mod b2.toNat 6,
    Nat.and_two_pow_sub_one_eq_mod b3.toNat 6, Nat.or_assoc, shiftLeft_or (k := 6) h3, shiftLeft_or (k := 12) htail]
  omega

theorem group4 : (b.toNat &&& 0xf) <<< 18 ||| (b2.toNat &&& 0x3f) <<< 12 ||| (b3.toNat &&& 0x3f) <<< 6 |||
      (b4.toNat &&& 0x3f) =
    b.toNat % 16 * 262144 + b2.toNat % 64 * 4096 + b3.toNat % 64 * 64 + b4.toNat % 64 := by
  have h4 : b4.toNat % 64 < 2 ^ 6 := by omega
  have htail : b3.toNat % 64 * 2 ^ 6 + b4.toNat % 64 < 2 ^ 12 := by omega
  have htail' : b2.toNat % 64 * 2 ^ 12 + (b3.toNat % 64 * 2 ^ 6 + b4.toNat % 64) < 2 ^ 18 := by omega
  rw [Nat.and_two_pow_sub_one_eq_mod b.toNat 4, Nat.and_two_pow_sub_one_eq_mod b2.toNat 6,
    Nat.and_two_pow_sub_one_eq_mod b3.toNat 6, Nat.and_two_pow_sub_one_eq_mod b4.toNat 6, Nat.or_assoc, Nat.or_assoc,
    shiftLeft_or (k := 6) h4, shiftLeft_or (k := 12) htail, shiftLeft_or (k := 18) htail']
  omega

end

section
variable {cp : Int} {bs : List UInt8}

theorem utf8CharToCodepoint_cons (b : UInt8) (s : List UInt8) :
    utf8CharToCodepoint (b :: s) = utf8Decode (toCHAR b.toNat) s := by
  simp only [utf8CharToCodepoint, nextChar, Option.bind_eq_bind, Option.bind_some]

theorem continued_of_tail {α : Type} {b : UInt8} (h : b.toNat / 64 = 2) (s : List UInt8) (back : α)
    (f : Int → List UInt8 → Option α) : continued (b :: s) back f = f (toCHAR b.toNat) s := by
  rw [continued_cons, if_pos ((isContinuation_iff (lowByte_toCHAR b)).2 h)]

theorem utf8CharToCodepoint_shape (h : Shape cp bs) (s : List UInt8) : utf8CharToCodepoint (bs ++ s) = some (cp, s) := by
  cases h with
  | @one b hb h0 =>
    rw [cons_append, utf8CharToCodepoint_cons, utf8Decode, lowByte_toCHAR, if_pos ((ascii_iff b.toNat_lt).2 hb),
      toCHAR_of_lt hb]
    rfl
  | @two b b2 hb h2 =>
    simp only [cons_append, nil_append]
    rw [utf8CharToCodepoint_cons, utf8Decode, lowByte_toCHAR, if_neg ((ascii_iff b.toNat_lt).not.2 (by omega)),
      if_pos ((lead2_iff b.toNat_lt).2 hb), continued_of_tail h2, lowByte_toCHAR, group2]
    rfl
  | @three b b2 b3 hb h2 h3 =>
    simp only [cons_append, nil_append]
    rw [utf8CharToCodepoint_cons, utf8Decode, lowByte_toCHAR, if_neg ((ascii_iff b.toNat_lt).not.2 (by omega)),
      if_neg ((lead2_iff b.toNat_lt).not.2 (by omega)), if_pos ((lead3_iff b.toNat_lt).2 hb), continued_of_tail h2,
      continued_of_tail h3, lowByte_toCHAR, lowByte_toCHAR, group3]
    rfl
  | @four b b2 b3 b4 hb h2 h3 h4 =>
    simp only [cons_append, nil_append]
    rw [utf8CharToCodepoint_cons, utf8Decode, lowByte_toCHAR, if_neg ((ascii_iff b.toNat_lt).not.2 (by omega)),
      if_neg ((lead2_iff b.toNat_lt).not.2 (by omega)), if_neg ((lead3_iff b.toNat_lt).not.2 (by omega)),
      if_pos ((lead4_iff b.toNat_lt).2 hb), continued_of_tail h2, continued_of_tail h3, continued_of_tail h4,
      lowByte_toCHAR, lowByte_toCHAR, lowByte_toCHAR, group4]
    rfl

theorem utf8SkipChar_shape {b : UInt8} (h : Shape cp (b :: bs)) (s : List UInt8) :
    utf8SkipChar (toCHAR b.toNat) (bs ++ s) = some s := by
  cases h with
  | one hb h0 =>
    rw [utf8SkipChar, lowByte_toCHAR, if_pos ((ascii_iff b.toNat_lt).2 hb)]
    rfl
  | two hb h2 =>
    simp only [cons_append, nil_append]
    rw [utf8SkipChar, lowByte_toCHAR, if_neg ((ascii_iff b.toNat_lt).not.2 (by omega)),
      if_pos ((lead2_iff b.toNat_lt).2 hb), continued_of_tail h2]
    rfl
  | three hb h2 h3 =>
    simp only [cons_append, nil_append]
    rw [utf8SkipChar, lowByte_toCHAR, if_neg ((ascii_iff b.toNat_lt).not.2 (by omega)),
      if_neg ((lead2_iff b.toNat_lt).not.2 (by omega)), if_pos ((lead3_iff b.toNat_lt).2 hb), continued_of_tail h2,
      continued_of_tail h3]
    rfl
  | four hb h2 h3 h4 =>
    simp only [cons_append, nil_append]
    rw [utf8SkipChar, lowByte_toCHAR, if_neg ((ascii_iff b.toNat_lt).not.2 (by omega)),
      if_neg ((lead2_iff b.toNat_lt).not.2 (by omega)), if_neg ((lead3_iff b.toNat_lt).not.2 (by omega)),
      if_pos ((lead4_iff b.toNat_lt).2 hb), continued_of_tail h2, continued_of_tail h3, continued_of_tail h4]
    rfl

end

/-! ## Sources of characters -/

section
variable {src : Source σ} {back2 : Int → Bool} {t t' : ScanState σ} {bs : List UInt8} {b : UInt8} {cp : Int}

/-- The next characters of the source are the bytes `bs`, up to the sign of the bytes from 128 on. -/
def Gives (src : Source σ) : ScanState σ → List UInt8 → ScanState σ → Prop
  | t, [], t' => t = t'
  | t, b :: bs, t' => ∃ c t1, src.getc t = .ok (c, t1) ∧ lowByte c = b.toNat ∧ (b.toNat < 128 → c = b.toNat) ∧
    Gives src t1 bs t'

theorem Gives.append {bs' : List UInt8} (h : Gives src t (bs ++ bs') t') :
    ∃ t1, Gives src t bs t1 ∧ Gives src t1 bs' t' := by
  induction bs generalizing t with
  | nil => exact ⟨t, rfl, h⟩
  | cons b bs ih =>
    obtain ⟨c, t2, hget, hlow, hascii, hrest⟩ := h
    obtain ⟨t1, h1, h2⟩ := ih hrest
    exact ⟨t1, ⟨c, t2, hget, hlow, hascii, h1⟩, h2⟩

theorem utf8Char_shape (h : Shape cp bs) (hgives : Gives src t bs t') : utf8Char src back2 t = .ok (cp, t') := by
  cases h with
  | @one b hb h0 =>
    obtain ⟨c, t1, hget, hlow, hascii, rfl⟩ := hgives
    rw [utf8Char, bind_of_ok hget, hlow, if_neg (not_not.2 ((ascii_iff b.toNat_lt).2 hb)), hascii hb]
    rfl
  | @two b b2 hb h2 =>
    obtain ⟨c, t1, hget, hlow, -, c2, t2, hget2, hlow2, -, rfl⟩ := hgives
    rw [utf8Char, bind_of_ok hget, hlow, if_pos ((ascii_iff b.toNat_lt).not.2 (by omega)), utf8Sequence, hlow,
      if_pos ((lead2_iff b.toNat_lt).2 hb), bind_of_ok hget2, if_pos ((isContinuation_iff hlow2).2 h2), hlow2, group2]
    rfl
  | @three b b2 b3 hb h2 h3 =>
    obtain ⟨c, t1, hget, hlow, -, c2, t2, hget2, hlow2, -, c3, t3, hget3, hlow3, -, rfl⟩ := hgives
    rw [utf8Char, bind_of_ok hget, hlow, if_pos ((ascii_iff b.toNat_lt).not.2 (by omega)), utf8Sequence, hlow,
      if_neg ((lead2_iff b.toNat_lt).not.2 (by omega)), if_pos ((lead3_iff b.toNat_lt).2 hb), bind_of_ok hget2,
      if_pos ((isContinuation_iff hlow2).2 h2), bind_of_ok hget3, if_pos ((isContinuation_iff hlow3).2 h3), hlow2, hlow3,
      group3]
    rfl
  | @four b b2 b3 b4 hb h2 h3 h4 =>
    obtain ⟨c, t1, hget, hlow, -, c2, t2, hget2, hlow2, -, c3, t3, hget3, hlow3, -, c4, t4, hget4, hlow4, -, rfl⟩ :=
      hgives
    rw [utf8Char, bind_of_ok hget, hlow, if_pos ((ascii_iff b.toNat_lt).not.2 (by omega)), utf8Sequence, hlow,
      if_neg ((lead2_iff b.toNat_lt).not.2 (by omega)), if_neg ((lead3_iff b.toNat_lt).not.2 (by omega)),
      if_pos ((lead4_iff b.toNat_lt).2 hb), bind_of_ok hget2, if_pos ((isContinuation_iff hlow2).2 h2), bind_of_ok hget3,
      if_pos ((isContinuation_iff hlow3).2 h3), bind_of_ok hget4, if_pos ((isContinuation_iff hlow4).2 h4), hlow2, hlow3,
      hlow4, group4]
    rfl

end

theorem gives_fileSource (bs rest : List UInt8) (lastc : Int) (e : Option TokenError) :
    Gives fileSource ⟨bs ++ rest, lastc, e⟩ bs ⟨rest, lastc, e⟩ := by
  induction bs with
  | nil => rfl
  | cons b bs ih => exact ⟨b.toNat, _, rfl, lowByte_byte b, fun _ => rfl, ih⟩

theorem gives_stringSource (bs before rest : List UInt8) (lastc : Int) (e : Option TokenError) :
    Gives stringSource ⟨⟨before, bs ++ rest, false⟩, lastc, e⟩ bs ⟨⟨bs.reverse ++ before, rest, false⟩, lastc, e⟩ := by
  induction bs generalizing before with
  | nil => rfl
  | cons b bs ih =>
    have hrest := ih (b :: before)
    rw [reverse_cons, append_assoc]
    exact ⟨toCHAR b.toNat, _, rfl, lowByte_toCHAR b, toCHAR_of_lt, hrest⟩

/-! ## Texts -/

def utf8Text (cps : List Int) : List UInt8 := cps.flatMap utf8Bytes

theorem utf8Text_cons (cp : Int) (cps : List Int) : utf8Text (cp :: cps) = utf8Bytes cp ++ utf8Text cps := rfl

def IsCode (cp : Int) : Prop := 0 < cp ∧ cp ≤ 0x10FFFF

theorem Shape.cons {cp : Int} {bs : List UInt8} (h : Shape cp bs) : ∃ b bs', bs = b :: bs' ∧ b ≠ 0 := by
  have hne : ∀ b : UInt8, 0 < b.toNat → b ≠ 0 := by
    intro b hb h0
    rw [h0, UInt8.toNat_zero] at hb
    exact absurd hb (Nat.lt_irrefl 0)
  cases h with
  | one hb h0 => exact ⟨_, _, rfl, h0⟩
  | two hb h2 => exact ⟨_, _, rfl, hne _ (by omega)⟩
  | three hb h2 h3 => exact ⟨_, _, rfl, hne _ (by omega)⟩
  | four hb h2 h3 h4 => exact ⟨_, _, rfl, hne _ (by omega)⟩

section
variable {cps : List Int} (h : ∀ cp ∈ cps, IsCode cp)
include h

theorem length_le_utf8Text : cps.length ≤ (utf8Text cps).length := by
  induction cps with
  | nil => exact Nat.zero_le _
  | cons cp cps ih =>
    obtain ⟨h0, h1⟩ := h cp mem_cons_self
    obtain ⟨b, bs, hbs, -⟩ := (shape_utf8Bytes h0 h1).cons
    have hrest := ih fun cp hcp => h cp (mem_cons_of_mem _ hcp)
    rw [utf8Text_cons, hbs, length_append, length_cons, length_cons]
    omega

theorem codepointsFrom_utf8Text {fuel : Nat} (hfuel : cps.length < fuel) :
    codepointsFrom fuel (utf8Text cps ++ [0]) = some cps := by
  induction cps generalizing fuel with
  | nil =>
    obtain ⟨fuel, rfl⟩ := Nat.exists_eq_succ_of_ne_zero (Nat.ne_of_gt hfuel)
    exact codepointsFrom_nul fuel
  | cons cp cps ih =>
    obtain ⟨fuel, rfl⟩ := Nat.exists_eq_succ_of_ne_zero (Nat.ne_of_gt (Nat.zero_lt_of_lt hfuel))
    obtain ⟨h0, h1⟩ := h cp mem_cons_self
    have hshape := shape_utf8Bytes h0 h1
    obtain ⟨b, bs, hbs, hb⟩ := hshape.cons
    have hdecode := utf8CharToCodepoint_shape hshape (utf8Text cps ++ [0])
    rw [hbs, cons_append, utf8CharToCodepoint_cons] at hdecode
    have hrest := ih (fun cp hcp => h cp (mem_cons_of_mem _ hcp)) (Nat.lt_of_succ_lt_succ hfuel)
    rw [utf8Text_cons, hbs, append_assoc, cons_append, codepointsFrom_cons, if_neg (toCHAR_ne_zero hb),
      hdecode, Option.bind_some, hrest]
    rfl

theorem utf8NcharsFrom_utf8Text {fuel : Nat} (count : Nat) (hfuel : cps.length < fuel) :
    utf8NcharsFrom fuel count (utf8Text cps ++ [0]) = some (count + cps.length) := by
  induction cps generalizing fuel count with
  | nil =>
    obtain ⟨fuel, rfl⟩ := Nat.exists_eq_succ_of_ne_zero (Nat.ne_of_gt hfuel)
    exact utf8NcharsFrom_nul fuel count
  | cons cp cps ih =>
    obtain ⟨fuel, rfl⟩ := Nat.exists_eq_succ_of_ne_zero (Nat.ne_of_gt (Nat.zero_lt_of_lt hfuel))
    obtain ⟨h0, h1⟩ := h cp mem_cons_self
    have hshape := shape_utf8Bytes h0 h1
    obtain ⟨b, bs, hbs, hb⟩ := hshape.cons
    have hskip := utf8SkipChar_shape (hbs ▸ hshape) (utf8Text cps ++ [0])
    have hrest := ih (fun cp hcp => h cp (mem_cons_of_mem _ hcp)) (count + 1) (Nat.lt_of_succ_lt_succ hfuel)
    rw [utf8Text_cons, hbs, append_assoc, cons_append, utf8NcharsFrom_cons, if_neg (toCHAR_ne_zero hb),
      hskip, Option.bind_some, hrest, length_cons]
    congr 1
    omega

theorem utf8Chars_utf8Text {src : Source σ} {back2 : Int → Bool} {t t' : ScanState σ}
    (hgives : Gives src t (utf8Text cps) t') : utf8Chars src back2 cps.length t = .ok (cps, t') := by
  induction cps generalizing t with
  | nil =>
    cases hgives
    rfl
  | cons cp cps ih =>
    obtain ⟨h0, h1⟩ := h cp mem_cons_self
    obtain ⟨t1, hchar, hrest⟩ := hgives.append
    rw [length_cons, utf8Chars, bind_of_ok (utf8Char_shape (shape_utf8Bytes h0 h1) hchar),
      bind_of_ok (ih (fun cp hcp => h cp (mem_cons_of_mem _ hcp)) hrest)]
    rfl

end

/-- Encoding and then decoding gives the codes, counting gives their number, and `utf8_getc` on a stream and on a string
reads them up to the end of the text. No reader goes beyond the NUL, where there is nothing to read. -/
theorem utf8_roundTrip (cps : List Int) (h : ∀ cp ∈ cps, IsCode cp) :
    codepoints (utf8Text cps ++ [0]) = some cps ∧ utf8Nchars (utf8Text cps ++ [0]) = some cps.length ∧
    (∀ rest lastc e, utf8Chars fileSource (fun b2 => b2 > 0) cps.length ⟨utf8Text cps ++ rest, lastc, e⟩ =
      .ok (cps, ⟨rest, lastc, e⟩)) ∧
    (∀ before lastc e, utf8Chars stringSource (fun b2 => b2 ≠ 0) cps.length ⟨⟨before, utf8Text cps, false⟩, lastc, e⟩ =
      .ok (cps, ⟨⟨(utf8Text cps).reverse ++ before, [], false⟩, lastc, e⟩)) ∧
    ∀ text : List UInt8, (codepoints (text ++ [0])).isSome ∧ (utf8Nchars (text ++ [0])).isSome := by
  have hlen := length_le_utf8Text h
  have hfuel : cps.length < (utf8Text cps ++ [0]).length := by
    rw [length_append, length_singleton]
    omega
  refine ⟨codepointsFrom_utf8Text h hfuel, ?_, fun rest lastc e => ?_, fun before lastc e => ?_, fun text => ?_⟩
  · rw [utf8Nchars, utf8NcharsFrom_utf8Text h 0 hfuel, Nat.zero_add]
  · exact utf8Chars_utf8Text h (gives_fileSource _ _ _ _)
  · have hgives := gives_stringSource (utf8Text cps) before [] lastc e
    rw [append_nil] at hgives
    exact utf8Chars_utf8Text h hgives
  · have hlt : text.length < (text ++ [0]).length := by
      rw [length_append, length_singleton]
      omega
    obtain ⟨codes, hcodes⟩ := exists_codepointsFrom _ text hlt
    obtain ⟨n, hn⟩ := exists_utf8NcharsFrom _ 0 text hlt
    rw [codepoints, hcodes, utf8Nchars, hn]
    exact ⟨rfl, rfl⟩

theorem utf8_roundTrip_lengths :
    codepoints (utf8Text [0x24, 0xE9, 0xD800, 0x10FFFF] ++ [0]) = some [0x24, 0xE9, 0xD800, 0x10FFFF] :=
  (utf8_roundTrip [0x24, 0xE9, 0xD800, 0x10FFFF] (by
    intro cp hcp
    simp only [mem_cons, not_mem_nil, or_false] at hcp
    unfold IsCode
    omega)).1

/-! ## The list of codes -/

/-- A word of the heap, as far as `string2codes` writes it; an address is an index. -/
inductive CodesCell
  | int (v : Int)
  | lst (a : Nat)
  | nilSym
  | unset
deriving DecidableEq, Repr

/-- `MAKEINT`. -/
def makeintCell (v : Int) : CodesCell := .int (v.bmod (2 ^ 61))

/-- The loop of `string2codes` over the rest of the text, at most `fuel` rounds of it. -/
def string2codesLoop : Nat → List UInt8 → Nat → List CodesCell → Option (Nat × List CodesCell)
  | 0, _, _, _ => none
  | fuel + 1, str, tail, heap => do
    let (c, _) ← nextChar str
    if c = 0 then pure (tail, heap)
    else
      let heap := heap.set tail (.lst heap.length)
      let (code, str) ← utf8CharToCodepoint str
      let heap := heap ++ [makeintCell code]
      string2codesLoop fuel str heap.length (heap ++ [.unset])

/-- `string2codes`: the term that `list` is unified with, and the heap. -/
def string2codes (str : List UInt8) (heap : List CodesCell) : Option (CodesCell × List CodesCell) := do
  let (c, rest) ← nextChar str
  if c = 0 then pure (.nilSym, heap)
  else
    let temp := CodesCell.lst heap.length
    let heap := heap ++ [makeintCell c]
    let (tail, heap) ← string2codesLoop str.length rest heap.length (heap ++ [.unset])
    pure (temp, heap.set tail .nilSym)

inductive IsCodes (heap : List CodesCell) : CodesCell → List Int → Prop
  | nil : IsCodes heap .nilSym []
  | cons {a : Nat} {v : Int} {t : CodesCell} {vs : List Int} (hcar : heap[a]? = some (.int v))
    (hcdr : heap[a + 1]? = some t) (hrest : IsCodes heap t vs) : IsCodes heap (.lst a) (v :: vs)

/-- The cells of a list of integers from the address `p` on. -/
def codesCells (p : Nat) : List Int → List CodesCell
  | [] => []
  | [c] => [makeintCell c, .nilSym]
  | c :: c' :: cs => makeintCell c :: .lst (p + 2) :: codesCells (p + 2) (c' :: cs)

/-- The loop fills the open end of the last cell with the codes of the rest of the text. -/
theorem string2codesLoop_eq {fuel : Nat} {str : List UInt8} {cs : List Int} (h : codepointsFrom fuel str = some cs)
    (pre : List CodesCell) (c : Int) :
    ∃ tail heap, string2codesLoop fuel str (pre.length + 1) (pre ++ [makeintCell c, .unset]) = some (tail, heap) ∧
      heap.set tail .nilSym = pre ++ codesCells pre.length (c :: cs) := by
  induction fuel generalizing str cs pre c with
  | zero => cases h
  | succ fuel ih =>
    have hset : ∀ t : CodesCell, (pre ++ [makeintCell c, .unset]).set (pre.length + 1) t = pre ++ [makeintCell c, t] := by
      intro t
      rw [set_append_right _ _ (by omega), Nat.add_sub_cancel_left]
      rfl
    cases str with
    | nil => cases h
    | cons b s =>
      rw [codepointsFrom_cons] at h
      simp only [string2codesLoop, nextChar, Option.bind_eq_bind, Option.bind_some, utf8CharToCodepoint]
      split_ifs at h ⊢ with hb
      · cases h
        exact ⟨_, _, rfl, hset _⟩
      · obtain ⟨⟨code, s'⟩, hcode, h⟩ := Option.bind_eq_some_iff.1 h
        obtain ⟨codes, hcodes, h⟩ := Option.bind_eq_some_iff.1 h
        cases h
        have hlen : (pre ++ [makeintCell c, CodesCell.lst (pre.length + 2)]).length = pre.length + 2 := by simp
        obtain ⟨tail, heap, hloop, hheap⟩ := ih hcodes (pre ++ [makeintCell c, .lst (pre.length + 2)]) code
        refine ⟨tail, heap, ?_, ?_⟩
        · rw [hcode, Option.bind_some, hset]
          rw [hlen, append_assoc] at hloop
          simpa using hloop
        · rw [hheap, hlen]
          simp [codesCells]

theorem string2codes_cons {b : UInt8} {s : List UInt8} {cs : List Int} (hb : b ≠ 0)
    (h : codepointsFrom (s.length + 1) s = some cs) (heap : List CodesCell) :
    string2codes (b :: s) heap = some (.lst heap.length, heap ++ codesCells heap.length (toCHAR b.toNat :: cs)) := by
  obtain ⟨tail, heap', hloop, hheap⟩ := string2codesLoop_eq h heap (toCHAR b.toNat)
  simp only [string2codes, nextChar, Option.bind_eq_bind, Option.bind_some, if_neg (toCHAR_ne_zero hb)]
  rw [← hheap]
  simp only [append_assoc, length_append, length_cons, length_nil, cons_append,
    nil_append, Nat.zero_add, hloop, Option.bind_some]
  rfl

theorem makeintCell_eq {v : Int} (hl : -2 ^ 60 ≤ v) (hu : v < 2 ^ 60) : makeintCell v = .int v := by
  rw [makeintCell, Int.bmod_eq_of_le (by omega) (by omega)]

theorem isCodes_codesCells (pre : List CodesCell) (c : Int) (cs : List Int)
    (h : ∀ v ∈ c :: cs, -2 ^ 60 ≤ v ∧ v < 2 ^ 60) :
    IsCodes (pre ++ codesCells pre.length (c :: cs)) (.lst pre.length) (c :: cs) := by
  induction cs generalizing pre c with
  | nil =>
    obtain ⟨hl, hu⟩ := h c mem_cons_self
    rw [codesCells, makeintCell_eq hl hu]
    exact IsCodes.cons (by simp) (by simp) IsCodes.nil
  | cons c' cs ih =>
    obtain ⟨hl, hu⟩ := h c mem_cons_self
    have hrest := ih (pre ++ [.int c, .lst (pre.length + 2)]) c' fun v hv => h v (mem_cons_of_mem _ hv)
    rw [codesCells, makeintCell_eq hl hu]
    apply IsCodes.cons (t := .lst (pre.length + 2)) (by simp) (by simp)
    simpa using hrest

/-! ## Valid texts -/

theorem toNat_char_lt (c : Char) : c.toNat < 0x110000 := by
  rcases c.valid with h | h
  · exact lt_trans h (by decide)
  · exact h.2

theorem isCode_char {c : Char} (h : c ≠ '\u0000') : IsCode c.toNat := by
  have hc := toNat_char_lt c
  have h0 : c.toNat ≠ 0 := fun h0 => h (Char.toNat_inj.1 h0)
  unfold IsCode
  omega

theorem utf8Bytes_char (c : Char) : utf8Bytes c.toNat = String.utf8EncodeChar c := by
  have hc := toNat_char_lt c
  have hval : c.val.toNat = c.toNat := rfl
  have hle : ∀ m k : Nat, m ≤ k ↔ m < k + 1 := fun m k => Nat.lt_succ_iff.symm
  rw [utf8Bytes_natCast, String.utf8EncodeChar, hval]
  simp only [hle]
  split_ifs with h2 h3 h4
  · rfl
  · rw [Nat.mod_eq_of_lt (show c.toNat / 64 < 0x20 by omega), Nat.add_comm _ 0xc0, Nat.add_comm _ 0x80]
    rfl
  · rw [Nat.mod_eq_of_lt (show c.toNat / 4096 < 0x10 by omega), Nat.add_comm _ 0xe0, Nat.add_comm _ 0x80,
      Nat.add_comm _ 0x80]
    rfl
  · rw [Nat.mod_eq_of_lt (show c.toNat / 262144 < 0x08 by omega), Nat.add_comm _ 0xf0, Nat.add_comm _ 0x80,
      Nat.add_comm _ 0x80, Nat.add_comm _ 0x80]
    rfl

/-- The bytes of a list of characters in UTF-8, which are those of every valid text. -/
def validText (cs : List Char) : List UInt8 := cs.flatMap String.utf8EncodeChar

def codePoints (cs : List Char) : List Int := cs.map fun c => (c.toNat : Int)

theorem utf8Text_codePoints (cs : List Char) : utf8Text (codePoints cs) = validText cs := by
  rw [utf8Text, codePoints, validText, flatMap_map]
  exact congrArg (fun f => cs.flatMap f) (funext utf8Bytes_char)

/-- `string2codes` gives the list of the code points of a text. -/
def CodesRight (cs : List Char) : Prop :=
  ∀ heap : List CodesCell, ∃ t heap', string2codes (validText cs ++ [0]) heap = some (t, heap') ∧ heap <+: heap' ∧
    IsCodes heap' t (codePoints cs)

theorem Shape.toCHAR_neg {cp : Int} {b : UInt8} {bs : List UInt8} (h : Shape cp (b :: bs)) (hcp : 128 ≤ cp) :
    toCHAR b.toNat < 0 := by
  have hhigh : 128 ≤ b.toNat := by
    cases h with
    | one hb h0 => exact Int.ofNat_le.1 hcp
    | two hb h2 => omega
    | three hb h2 h3 => omega
    | four hb h2 h3 h4 => omega
  have hb := b.toNat_lt
  rw [toCHAR, Int.bmod_def]
  split_ifs <;> omega

theorem utf8Bytes_ascii {n : Nat} (h : n < 128) : utf8Bytes n = [UInt8.ofNat n] := by
  rw [utf8Bytes_natCast, if_pos h]
  rfl

theorem string2codes_nil (heap : List CodesCell) : string2codes [0] heap = some (.nilSym, heap) := by
  simp only [string2codes, nextChar, Option.bind_eq_bind, Option.bind_some, if_pos toCHAR_zero]
  rfl

theorem codesRight_of_ascii {c : Char} {cs : List Char} (h : ∀ d ∈ c :: cs, d ≠ '\u0000') (hc : c.toNat < 128) :
    CodesRight (c :: cs) := by
  intro heap
  have hcodes : ∀ cp ∈ codePoints (c :: cs), IsCode cp := by
    intro cp hcp
    obtain ⟨d, hd, rfl⟩ := mem_map.1 hcp
    exact isCode_char (h d hd)
  have hrest : ∀ cp ∈ codePoints cs, IsCode cp := fun cp hcp => hcodes cp (mem_cons_of_mem _ hcp)
  have htext : validText (c :: cs) ++ [0] = UInt8.ofNat c.toNat :: (utf8Text (codePoints cs) ++ [0]) := by
    rw [utf8Text_codePoints, validText, flatMap_cons, ← utf8Bytes_char, utf8Bytes_ascii hc]
    rfl
  have hbyte : (UInt8.ofNat c.toNat).toNat = c.toNat := UInt8.toNat_ofNat_of_lt' (lt_trans hc (by decide))
  have hne : UInt8.ofNat c.toNat ≠ 0 := by
    intro h0
    rw [h0] at hbyte
    exact h c mem_cons_self (Char.toNat_inj.1 hbyte.symm)
  have hlen := length_le_utf8Text hrest
  have hdecode := codepointsFrom_utf8Text hrest (show _ < (utf8Text (codePoints cs) ++ [0]).length + 1 by
    rw [length_append]
    omega)
  have hfirst : toCHAR (UInt8.ofNat c.toNat).toNat = c.toNat := by
    rw [toCHAR_of_lt (by omega), hbyte]
  refine ⟨_, _, by rw [htext]; exact string2codes_cons hne hdecode heap, prefix_append _ _, ?_⟩
  rw [hfirst]
  apply isCodes_codesCells
  intro v hv
  have hv := hcodes v hv
  unfold IsCode at hv
  omega

theorem not_codesRight {c : Char} (cs : List Char) (h : c ≠ '\u0000') (hc : 128 ≤ c.toNat) :
    ¬ CodesRight (c :: cs) := by
  intro hright
  have hshape := shape_utf8Bytes (isCode_char h).1 (isCode_char h).2
  obtain ⟨b, bs, hbs, hb⟩ := hshape.cons
  have htext : validText (c :: cs) ++ [0] = b :: (bs ++ validText cs ++ [0]) := by
    rw [validText, flatMap_cons, ← utf8Bytes_char, hbs]
    rfl
  have hneg := (hbs ▸ hshape).toCHAR_neg (Int.ofNat_le.2 hc)
  obtain ⟨codes, hdecode⟩ := exists_codepointsFrom ((bs ++ validText cs ++ [0]).length + 1) (bs ++ validText cs)
    (Nat.lt_succ_of_le (prefix_append _ _).length_le)
  obtain ⟨t, heap', hrun, -, hlist⟩ := hright []
  rw [htext, string2codes_cons hb hdecode] at hrun
  cases hrun
  cases hlist with
  | cons hcar hcdr hrest =>
    have hcell : makeintCell (toCHAR b.toNat) = .int c.toNat := by
      cases codes with
      | nil => exact Option.some.inj hcar
      | cons d codes => exact Option.some.inj hcar
    have hlo := Int.le_bmod (x := (b.toNat : Int)) (by decide : 0 < 256)
    rw [makeintCell_eq (by unfold toCHAR; omega) (by omega)] at hcell
    have heq := CodesCell.int.inj hcell
    omega

/-- The list of codes is right when the text is empty or begins with an ASCII character, and only then. -/
theorem string2codes_iff (cs : List Char) (h : '\u0000' ∉ cs) : CodesRight cs ↔ ∀ c ∈ cs.head?, c.toNat < 128 := by
  cases cs with
  | nil => exact ⟨fun _ c hc => by simp at hc, fun _ heap => ⟨_, heap, string2codes_nil heap, prefix_rfl, IsCodes.nil⟩⟩
  | cons c cs =>
    have hne : ∀ d ∈ c :: cs, d ≠ '\u0000' := fun d hd h0 => h (h0 ▸ hd)
    rw [show (∀ d ∈ (c :: cs).head?, d.toNat < 128) ↔ c.toNat < 128 by simp]
    constructor
    · intro hright
      by_contra hc
      exact not_codesRight _ (hne c mem_cons_self) (by omega) hright
    · exact codesRight_of_ascii hne

theorem string2codes_iff_ascii_first : CodesRight ['a', 'é'] ↔ ∀ c ∈ (['a', 'é'] : List Char).head?, c.toNat < 128 :=
  string2codes_iff ['a', 'é'] (by decide)

/-- The text of one character outside ASCII. -/
theorem string2codes_first_byte : ¬ ∀ cs : List Char, '\u0000' ∉ cs → CodesRight cs := by
  intro h
  exact not_codesRight (c := 'é') [] (by decide) (by decide) (h ['é'] (by decide))

end Picat
