import Picat.Token.Scan

/-!
# Numerals and the values of tokens

* `bigintStep_denotes`, `digitsValue_eq` : the accumulation in a word and from its overflow on in a bigint.
-/

namespace Picat

open List

/-! ## Values of tokens -/

inductive ValueError
  /-- A character outside the tables. -/
  | table
  | arith (e : ArithError)
deriving DecidableEq, Repr

/-- The value that comes with a token, as far as `ISINT`, `IS_BIGINT` and `ISFLOAT` tell it. -/
inductive TokenValue
  | number (t : Term)
  /-- `encodefloat1(atof(AtomStr))`, possibly negated. -/
  | float (negated : Bool) (atomStr : List UInt8)
  /-- An atom, a list, or a variable that nothing is assigned to. -/
  | other
deriving DecidableEq, Repr

/-- `DigVal(AtomStr[len])`. -/
def digitAt (b : UInt8) : Except ValueError Int := (digValOf (toCHAR b.toNat)).elim (.error .table) .ok

def digitBigint (newv : Term) (b : UInt8) : Except ValueError Term := do
  let v ← digitAt b
  (bigintStep newv 10 v).mapError .arith

/-- The digits of a decimal from the one on that the word is full at. -/
def digitsBigint (newv : Term) : List UInt8 → Except ValueError Term
  | [] => .ok newv
  | b :: s => if b = 0 then .ok newv else do digitsBigint (← digitBigint newv b) s

/-- The case `DIGIT` of `b_NEXT_TOKEN_ff`, from the value `oldv` on. -/
def digitsValue (oldv : Int) : List UInt8 → Except ValueError Term
  | [] => .ok (makeint oldv)
  | b :: s =>
    if b = 0 then .ok (makeint oldv)
    else do
      let v ← digitAt b
      let newv := bplong (oldv * 10 + v)
      if wordFull oldv newv then digitsBigint (.bigint (bpIntToBigint oldv)) (b :: s)
      else digitsValue newv s

/-- The second argument that `b_NEXT_TOKEN_ff` assigns for a token. -/
def tokenValue : Token → Except ValueError TokenValue
  | .digit s => .number <$> digitsValue 0 s
  | .real s => .ok (.float false s)
  | .rdigit radInt => .ok (.number (makeint radInt))
  | .bigint radInt => .ok (.number radInt)
  | .upper _ | .lower _ | .punct _ | .lisqt _ | .endcl | .eofch => .ok .other

/-! ## Digits -/

def digitOf (b : UInt8) : Option Nat :=
  let n := b.toNat
  if 48 ≤ n ∧ n ≤ 57 then some (n - 48)
  else if 65 ≤ n ∧ n ≤ 70 then some (n - 55)
  else if 97 ≤ n ∧ n ≤ 102 then some (n - 87)
  else none

/-- `_` -/
abbrev underscore : UInt8 := 95

/-- What the digits of a text stand for, after digits that stand for `v`. -/
def valueFrom (base v : Nat) (s : List UInt8) : Nat :=
  s.foldl (fun v b => match digitOf b with | some d => v * base + d | none => v) v

def IsDigits (base : Nat) (s : List UInt8) : Prop := ∀ b ∈ s, b = underscore ∨ ∃ d < base, digitOf b = some d

def DigitFirst (s : List UInt8) : Prop := ∃ b ∈ s.head?, (digitOf b).isSome

/-- `b`, `o` and `x`, small or capital. -/
def letterBase (b : UInt8) : Option Nat :=
  if b = 98 ∨ b = 66 then some 2 else if b = 111 ∨ b = 79 then some 8 else if b = 120 ∨ b = 88 then some 16 else none

inductive Numeral
  | decimal (s : List UInt8) (h : IsDigits 10 s) (hfirst : DigitFirst s)
  /-- `0` and a letter, and digits of its base. -/
  | based (letter : UInt8) (base : Nat) (hbase : letterBase letter = some base) (s : List UInt8) (h : IsDigits base s)
    (hfirst : DigitFirst s)
  /-- A radix of at most 16, the separator, and digits of the radix. -/
  | radix (r : List UInt8) (hr : IsDigits 10 r) (hfirst : DigitFirst r) (hpos : 0 < valueFrom 10 0 r)
    (hmax : valueFrom 10 0 r ≤ 16) (s : List UInt8) (h : IsDigits (valueFrom 10 0 r) s)

namespace Numeral

def text : Numeral → List UInt8
  | decimal s _ _ => s
  | based letter _ _ s _ _ => 48 :: letter :: s
  | radix r _ _ _ _ s _ => r ++ 39 :: s

def val : Numeral → Nat
  | decimal s _ _ => valueFrom 10 0 s
  | based _ base _ s _ _ => valueFrom base 0 s
  | radix r _ _ _ _ s _ => valueFrom (valueFrom 10 0 r) 0 s

/-- The digits that are stored in `AtomStr`. -/
def stored : Numeral → List UInt8
  | decimal s _ _ => s.filter (· ≠ underscore)
  | based _ _ _ _ _ _ => []
  | radix r _ _ _ _ _ _ => r.filter (· ≠ underscore)

def Ends : Numeral → List UInt8 → Prop
  | decimal s _ _, rest =>
    (∀ b ∈ rest.head?, (∀ d < 10, digitOf b ≠ some d) ∧ b ≠ underscore ∧ b ≠ 39 ∧ (s = [48] → letterBase b = none)) ∧
    ∀ b r, rest = 46 :: b :: r → ∀ d < 10, digitOf b ≠ some d
  | based _ _ _ _ _ _, rest | radix _ _ _ _ _ _ _, rest => ∀ b ∈ rest.head?, digitOf b = none ∧ b ≠ underscore

/-- The bytes after the numeral whose type or digit value the tokenizers look up. -/
def looksAt : Numeral → List UInt8 → List UInt8
  | decimal _ _ _, rest => if rest.head? = some 46 then rest.take 2 else rest.take 1
  | based _ _ _ _ _ _, rest | radix _ _ _ _ _ _ _, rest => rest.take 1

end Numeral

/-! ## Accumulation -/

def numberTerm (v : Int) : Term := (Number.ofInt v).term

theorem numberTerm_denotes (v : Int) : Denotes (numberTerm v) v := ⟨(Number.ofInt v).canon, Number.val_ofInt v⟩

theorem Denotes.eq_numberTerm {t : Term} {v : Int} (h : Denotes t v) : t = numberTerm v :=
  h.unique (numberTerm_denotes v)

theorem makeint_eq_numberTerm {v : Int} (h : bpIn1WIntRange v) : makeint v = numberTerm v :=
  (denotes_makeint h).eq_numberTerm

def numberToken (v : Nat) : Token := if (v : Int) ≤ bpMaxint1W then .rdigit v else .bigint (numberTerm v)

theorem tokenValue_numberToken (v : Nat) : tokenValue (numberToken v) = .ok (.number (numberTerm v)) := by
  unfold numberToken
  split_ifs with h
  · rw [tokenValue, makeint_eq_numberTerm ⟨by unfold bpMinint1W bpMaxint1W; omega, h⟩]
  · rfl

section
variable {base v d : Nat} {t : Term} {b : UInt8} {s : List UInt8}

theorem bigintStep_eq (h : IsBigint t.toBigint v) (hv : 0 < v) (hbase : 0 < base) (d : Nat) :
    bigintStep t base d = .ok (numberTerm (v * base + d : Nat)) := by
  have hne : (v : Int) ≠ 0 := by omega
  have hbase' : (base : Int) ≠ 0 := by omega
  obtain ⟨t1, hmul, h1⟩ := bpMulBigintBigint_denotes h (isBigint_bpIntToBigint base) hne hbase'
  have hprod : (v : Int) * base ≠ 0 := mul_ne_zero hne hbase'
  have hstep1 : IsBigint t1.toBigint (v * base) := h1.2 ▸ isBigint_toBigint h1.1
  have h2 := bpAddBigintBigint_denotes hstep1 (isBigint_bpIntToBigint d) (.inl hprod)
  rw [bigintStep, hmul]
  show Except.ok _ = _
  rw [h2.eq_numberTerm, Int.natCast_add, Int.natCast_mul]

theorem isBigint_numberTerm (v : Nat) : IsBigint (numberTerm v).toBigint v := by
  have h := isBigint_toBigint (numberTerm_denotes v).1
  rwa [(numberTerm_denotes v).2] at h

theorem isBigint_word (v : Nat) : IsBigint (Term.bigint (bpIntToBigint v)).toBigint v := isBigint_bpIntToBigint v

theorem wordFull_iff (hv : (v : Int) ≤ bpMaxint1W) (hbase : 0 < base) (hmax : base ≤ 16) (hd : d < base) :
    bplong (v * base + d) = (v * base + d : Nat) ∧
      (wordFull v (bplong (v * base + d)) ↔ bpMaxint1W < (v * base + d : Nat)) := by
  have hle : v * base ≤ v * 16 := Nat.mul_le_mul_left v hmax
  have hge : v * 1 ≤ v * base := Nat.mul_le_mul_left v hbase
  have hword : bplong (v * base + d) = (v * base + d : Nat) := by
    rw [← Int.natCast_mul, ← Int.natCast_add]
    exact bplong_eq (by omega) (by unfold bpMaxint1W at hv; omega)
  rw [hword]
  refine ⟨rfl, ?_⟩
  unfold wordFull
  omega

theorem valueFrom_cons_digit (h : digitOf b = some d) : valueFrom base v (b :: s) = valueFrom base (v * base + d) s := by
  rw [valueFrom, foldl_cons, h]
  rfl

theorem IsDigits.head_lt (h : IsDigits base (b :: s)) (hd : digitOf b = some d) : d < base := by
  rcases h b mem_cons_self with rfl | ⟨d', hlt, hd'⟩
  · cases hd
  · rw [hd] at hd'
    cases hd'
    exact hlt

theorem valueFrom_cons_underscore : valueFrom base v (underscore :: s) = valueFrom base v s := rfl

end

/-! ## Tables -/

theorem digitOf_lt {b : UInt8} {d : Nat} (h : digitOf b = some d) : b.toNat < 128 ∧ d < 16 := by
  unfold digitOf at h
  dsimp only at h
  split_ifs at h <;> cases h <;> omega

theorem tables_ascii : ∀ n < 128, (∀ d < 16, digitOf (UInt8.ofNat n) = some d → digValOf n = some (d : Int)) ∧
    (digitOf (UInt8.ofNat n) = none → n ≠ 95 → digValOf n = some 99) ∧
    (inTypeOf n = some .digit ↔ ∃ d < 10, digitOf (UInt8.ofNat n) = some d) := by
  decide +kernel

section
variable {b : UInt8} {d : Nat}

section
variable (h : digitOf b = some d)
include h

theorem digValOf_digit : digValOf b.toNat = some (d : Int) := by
  obtain ⟨hlt, hd⟩ := digitOf_lt h
  have htable := (tables_ascii b.toNat hlt).1 d hd
  rw [UInt8.ofNat_toNat] at htable
  exact htable h

theorem inTypeOf_digit (hd : d < 10) : inTypeOf b.toNat = some .digit := by
  have htable := (tables_ascii b.toNat (digitOf_lt h).1).2.2
  rw [UInt8.ofNat_toNat] at htable
  exact htable.2 ⟨d, hd, h⟩

theorem toCHAR_digit : toCHAR b.toNat = b.toNat := toCHAR_of_lt (digitOf_lt h).1

theorem digit_ne_zero : b ≠ 0 := by
  intro h0
  rw [h0] at h
  cases h

end

end

/-! ## Decimals -/

def AllDigits (s : List UInt8) : Prop := ∀ b ∈ s, ∃ d < 10, digitOf b = some d

theorem ok_bind {α β : Type} (a : α) (f : α → Except ValueError β) : (Except.ok a >>= f) = f a := rfl

theorem digitAt_digit {b : UInt8} {d : Nat} (h : digitOf b = some d) : digitAt b = .ok (d : Int) := by
  unfold digitAt
  rw [toCHAR_digit h, digValOf_digit h]
  rfl

theorem digitsBigint_cons {t : Term} {v d : Nat} {b : UInt8} {s : List UInt8} (h : IsBigint t.toBigint v) (hv : 0 < v)
    (hb : digitOf b = some d) : digitsBigint t (b :: s) = digitsBigint (numberTerm (v * 10 + d : Nat)) s := by
  have hstep := bigintStep_eq h hv (by decide : 0 < 10) d
  rw [Nat.cast_ofNat] at hstep
  have hdigit : digitBigint t b = .ok (numberTerm (v * 10 + d : Nat)) := by
    rw [digitBigint, digitAt_digit hb]
    show (bigintStep t 10 d).mapError _ = _
    rw [hstep]
    rfl
  rw [digitsBigint, if_neg (digit_ne_zero hb), hdigit, ok_bind]

theorem digitsBigint_eq {v : Nat} {s : List UInt8} (hv : 0 < v) (hs : AllDigits s) :
    digitsBigint (numberTerm v) s = .ok (numberTerm (valueFrom 10 v s : Nat)) := by
  induction s generalizing v with
  | nil => rfl
  | cons b s ih =>
    obtain ⟨d, hd, hb⟩ := hs b mem_cons_self
    rw [digitsBigint_cons (isBigint_numberTerm v) hv hb, valueFrom_cons_digit hb,
      ih (by omega) fun b hb => hs b (mem_cons_of_mem _ hb)]

theorem digitsValue_eq {v : Nat} {s : List UInt8} (hv : (v : Int) ≤ bpMaxint1W) (hs : AllDigits s) :
    digitsValue v s = .ok (numberTerm (valueFrom 10 v s : Nat)) := by
  induction s generalizing v with
  | nil =>
    rw [digitsValue, makeint_eq_numberTerm ⟨by unfold bpMinint1W bpMaxint1W; omega, hv⟩]
    rfl
  | cons b s ih =>
    obtain ⟨d, hd, hb⟩ := hs b mem_cons_self
    have hrest : AllDigits s := fun b hb => hs b (mem_cons_of_mem _ hb)
    obtain ⟨hword, hfull⟩ := wordFull_iff hv (by decide : 0 < 10) (by decide) hd
    rw [Nat.cast_ofNat] at hword hfull
    rw [digitsValue, if_neg (digit_ne_zero hb), digitAt_digit hb, ok_bind, valueFrom_cons_digit hb]
    by_cases hover : bpMaxint1W < (v * 10 + d : Nat)
    · have hpos : 0 < v := by
        unfold bpMaxint1W at hover
        omega
      rw [if_pos (hfull.2 hover), digitsBigint_cons (isBigint_word v) hpos hb, digitsBigint_eq (by omega) hrest]
    · rw [if_neg (hfull.not.2 hover), hword, ih (not_lt.1 hover) hrest]

/-! ## Stored digits -/

theorem le_valueFrom {base : Nat} (hpos : 0 < base) (v : Nat) (t : List UInt8) : v ≤ valueFrom base v t := by
  induction t generalizing v with
  | nil => exact Nat.le_refl v
  | cons b t ih =>
    have hmul : v ≤ v * base := Nat.le_mul_of_pos_right v hpos
    rw [valueFrom, foldl_cons]
    cases digitOf b with
    | none => exact ih v
    | some d => exact le_trans (by omega) (ih (v * base + d))

/-- What of a text of digits goes into `AtomStr`. -/
abbrev storedDigits (s : List UInt8) : List UInt8 := s.filter (· ≠ underscore)

theorem valueFrom_storedDigits (base v : Nat) (s : List UInt8) : valueFrom base v (storedDigits s) = valueFrom base v s := by
  induction s generalizing v with
  | nil => rfl
  | cons b s ih =>
    by_cases hb : b = underscore
    · rw [storedDigits, filter_cons_of_neg (by simpa using hb), hb]
      exact ih v
    · rw [storedDigits, filter_cons_of_pos (by simpa using hb), valueFrom, foldl_cons]
      exact ih _

theorem allDigits_storedDigits {s : List UInt8} (h : IsDigits 10 s) : AllDigits (storedDigits s) := by
  intro b hb
  obtain ⟨hmem, hne⟩ := mem_filter.1 hb
  exact (h b hmem).resolve_left (by simpa using hne)

theorem digitOf_ten {b : UInt8} {d : Nat} (h : digitOf b = some d) (hd : d < 10) : b.toNat = d + 48 := by
  unfold digitOf at h
  dsimp only at h
  split_ifs at h <;> cases h <;> omega

theorem radixOf_eq {s : List UInt8} {v : Nat} (h : AllDigits s) (hmax : valueFrom 10 v s ≤ 36) :
    radixOf v s = some (valueFrom 10 v s : Int) := by
  induction s generalizing v with
  | nil => rfl
  | cons b s ih =>
    obtain ⟨d, hd, hb⟩ := h b mem_cons_self
    have hbyte := digitOf_ten hb hd
    rw [valueFrom_cons_digit hb] at hmax ⊢
    have hle : v * 10 + d ≤ 36 := le_trans (le_valueFrom (by decide) (v * 10 + d) s) hmax
    have hnext : (v : Int) * 10 - 48 + b.toNat = (v * 10 + d : Nat) := by omega
    rw [radixOf, toCHAR_digit hb, if_neg (by omega), hnext]
    dsimp only
    rw [if_neg (by omega)]
    exact ih (fun b hb => h b (mem_cons_of_mem _ hb)) hmax

end Picat
