import Picat.Arith.Bitwise

/-!
# Arithmetic expressions

`eval_arith` on integers, and the functions it calls, each of which evaluates its operands, the left one first.

* `evalArith_spec` : the number or the error of an expression.
-/

namespace Picat
open Digits

inductive Functor1
  | add1 | sub1 | compPsc1 | negation1 | abs1 | integer1
deriving DecidableEq, Repr

inductive Functor2
  | add2 | sub2 | mul2 | idiv2 | idivDiv | mod2 | rem2 | and2 | or2 | capPsc | xor2 | max2 | min2
deriving DecidableEq, Repr

/-- The words that `eval_arith` takes; `other` is a list, or a term whose name starts with `chPtr` and has no function. -/
inductive Expr
  | var
  | num (x : Number)
  | other (chPtr : Option Char) (word : ℕ)
  | maxint
  | minint
  | op1 (ptr : Functor1) (ex1 : Expr)
  | op2 (ptr : Functor2) (ex1 ex2 : Expr)

/-- What is put into `bp_exception`; a type error has the word that is not of the type. -/
inductive EvalError
  | instantiation
  | evaluable (word : ℕ)
  | number (word : ℕ)
  | arith (e : ArithError)

/-! ## The functions -/

/-- `bp_float_abs` on integers. -/
def bpFloatAbs : Term → Term
  | .int i => if i < 0 then makeint (-i) else .int i
  | .bigint op1 => if op1.sign < 0 then .bigint (bpNegBigint op1) else .bigint op1

/-- The test of `bp_math_max` and `bp_math_min`. -/
def isLarger : Term → Term → Bool
  | .int i1, .int i2 => i1 > i2
  | .int _, .bigint op2 => op2.sign < 0
  | .bigint op1, .int _ => op1.sign > 0
  | .bigint op1, .bigint op2 => bpCompareBigintBigint op1 op2 ≥ 0

def bpMathMax (op1 op2 : Term) : Term := if isLarger op1 op2 then op1 else op2

def bpMathMin (op1 op2 : Term) : Term := if isLarger op1 op2 then op2 else op1

def Functor1.call : Functor1 → Term → Except ArithError Term
  | .add1, t | .integer1, t => .ok t
  | .sub1, t => .ok (bpMathSub (.int 0) t)
  | .compPsc1, t | .negation1, t => bpBitwiseComplement t
  | .abs1, t => .ok (bpFloatAbs t)

/-- `^` is the bitwise or, like `\/`. -/
def Functor2.call : Functor2 → Term → Term → Except ArithError Term
  | .add2, t, u => .ok (bpMathAdd t u)
  | .sub2, t, u => .ok (bpMathSub t u)
  | .mul2, t, u => bpMathMul t u
  | .idiv2, t, u => bpMathIdiv t u
  | .idivDiv, t, u => bpMathIdivDiv t u
  | .mod2, t, u => bpMathMod t u
  | .rem2, t, u => bpMathRem t u
  | .and2, t, u => .ok (bpBitwiseAnd t u)
  | .or2, t, u | .capPsc, t, u => .ok (bpBitwiseOr t u)
  | .xor2, t, u => .ok (bpBitwiseXor t u)
  | .max2, t, u => .ok (bpMathMax t u)
  | .min2, t, u => .ok (bpMathMin t u)

/-- The error for a list, or for a name in or outside the cases of the `switch`. -/
def typeError (chPtr : Option Char) : ℕ → EvalError :=
  if chPtr.all (· ∈ "~^+-*/d<>\\acgefilmprstx".toList) then .evaluable else .number

def evalArith : Expr → Except EvalError Term
  | .var => .error .instantiation
  | .num x => .ok x.term
  | .other chPtr word => .error (typeError chPtr word)
  | .maxint => .ok (makeint bpMaxint1W)
  | .minint => .ok (makeint bpMinint1W)
  | .op1 ptr ex1 => do (ptr.call (← evalArith ex1)).mapError .arith
  | .op2 ptr ex1 ex2 => do
    let op1 ← evalArith ex1
    let op2 ← evalArith ex2
    (ptr.call op1 op2).mapError .arith

/-! ## The numbers -/

def Functor1.value : Functor1 → ℤ → ℤ
  | .add1, v | .integer1, v => v
  | .sub1, v => -v
  | .compPsc1, v | .negation1, v => -v - 1
  | .abs1, v => |v|

def Functor2.value : Functor2 → ℤ → ℤ → ℤ
  | .add2, v, w => v + w
  | .sub2, v, w => v - w
  | .mul2, v, w => v * w
  | .idiv2, v, w => v.tdiv w
  | .idivDiv, v, w => v.fdiv w
  | .mod2, v, w => v.fmod w
  | .rem2, v, w => v.tmod w
  | .and2, v, w => Int.land v w
  | .or2, v, w | .capPsc, v, w => Int.lor v w
  | .xor2, v, w => Int.xor v w
  | .max2, v, w => max v w
  | .min2, v, w => min v w

def Functor2.divides (ptr : Functor2) : Bool := ptr ∈ [.idiv2, .idivDiv, .mod2, .rem2]

def Expr.value : Expr → Except EvalError ℤ
  | .var => .error .instantiation
  | .num x => .ok x.val
  | .other chPtr word => .error (typeError chPtr word)
  | .maxint => .ok bpMaxint1W
  | .minint => .ok bpMinint1W
  | .op1 ptr ex1 => do return ptr.value (← ex1.value)
  | .op2 ptr ex1 ex2 => do
    let v ← ex1.value
    let w ← ex2.value
    if ptr.divides ∧ w = 0 then .error (.arith .zeroDivisor) else .ok (ptr.value v w)

/-- The operands for which a function has another result. -/
def Functor2.Wrong : Functor2 → ℤ → ℤ → Prop
  | .mod2 => ModShortcutWrong
  | .and2 => AndLost
  | .xor2 => XorLost
  | _ => fun _ _ => False

/-- No function is called with such operands. -/
def Expr.Sound : Expr → Prop
  | .op1 _ ex1 => ex1.Sound
  | .op2 ptr ex1 ex2 => ex1.Sound ∧ ex2.Sound ∧ ∀ v w, ex1.value = .ok v → ex2.value = .ok w → ¬ ptr.Wrong v w
  | _ => True

/-- What is returned is the number, or its error. -/
def Evaluates (res : Except EvalError Term) : Except EvalError ℤ → Prop
  | .ok v => ∃ t, res = .ok t ∧ Denotes t v
  | .error e => res = .error e

section
variable {v w : ℤ} {t : Term}

theorem eq_of_testBit (h : ∀ i, v.testBit i = w.testBit i) : v = w := by
  have hlt : ∀ {m n : ℕ}, m ≤ n → m < 2 ^ n := fun hmn => Nat.lt_two_pow_self.trans_le (Nat.pow_le_pow_right two_pos hmn)
  have hsign := h (v.natAbs + w.natAbs)
  rw [testBit_high (hlt (Nat.le_add_right ..)), testBit_high (hlt (Nat.le_add_left ..)), decide_eq_decide] at hsign
  cases v with
  | ofNat m =>
    cases w with
    | ofNat n => exact congrArg Int.ofNat (Nat.eq_of_testBit_eq h)
    | negSucc n => exact absurd (hsign.2 (Int.negSucc_lt_zero n)) (Int.natCast_nonneg m).not_gt
  | negSucc m =>
    cases w with
    | ofNat n => exact absurd (hsign.1 (Int.negSucc_lt_zero m)) (Int.natCast_nonneg n).not_gt
    | negSucc n => exact congrArg Int.negSucc (Nat.eq_of_testBit_eq fun i => Bool.not_inj (h i))

theorem bpFloatAbs_denotes (h : Denotes t v) : Denotes (bpFloatAbs t) |v| := by
  have heq : bpFloatAbs t = if v < 0 then negTerm t else t := by
    obtain ⟨hc, rfl⟩ := h
    cases t with
    | int i => rfl
    | bigint b =>
      rw [bpFloatAbs, (isBigint_of_canon hc).sign_eq]
      split_ifs <;> first | rfl | omega
  rw [heq]
  split_ifs with hv
  · rw [abs_of_neg hv]
    exact negTerm_denotes h
  · rwa [abs_of_nonneg (not_lt.1 hv)]

theorem Functor1.call_denotes (ptr : Functor1) (x : Number) :
    ∃ t, ptr.call x.term = .ok t ∧ Denotes t (ptr.value x.val) := by
  have hx : Denotes x.term x.val := ⟨x.canon, rfl⟩
  cases ptr with
  | add1 | integer1 => exact ⟨_, rfl, hx⟩
  | sub1 =>
    have hsub := bpMathSub_denotes ⟨.int 0, denotes_zero.1⟩ x
    exact ⟨_, rfl, hsub.1, hsub.2.trans (zero_sub x.val)⟩
  | compPsc1 | negation1 => exact bpBitwiseComplement_spec x
  | abs1 => exact ⟨_, rfl, bpFloatAbs_denotes hx⟩

theorem isLarger_spec (x y : Number) : if isLarger x.term y.term then y.val ≤ x.val else x.val ≤ y.val := by
  rcases x with ⟨i | a, hx⟩ <;> rcases y with ⟨j | b, hy⟩ <;> simp only [isLarger, Number.val, decide_eq_true_eq]
  · simp only [Term.val]
    split_ifs <;> omega
  · have hi : i.natAbs < 2 ^ 56 := in1W_iff.1 hx
    have hb := in1W_iff.not.1 (not_in1W_of_canon hy)
    rw [(isBigint_of_canon hy).sign_eq, Term.val]
    split_ifs <;> omega
  · have hj : j.natAbs < 2 ^ 56 := in1W_iff.1 hy
    have ha := in1W_iff.not.1 (not_in1W_of_canon hx)
    rw [(isBigint_of_canon hx).sign_eq, Term.val]
    split_ifs <;> omega
  · rw [(isBigint_of_canon hx).compare (isBigint_of_canon hy)]
    split_ifs with h
    · exact sub_nonneg.1 (Int.sign_nonneg_iff.1 h)
    · exact (not_le.1 fun hle => h (Int.sign_nonneg_iff.2 (sub_nonneg.2 hle))).le

theorem Functor2.call_zero (ptr : Functor2) (x y : Number) (h : ptr.divides) (hy : y.val = 0) :
    ptr.call x.term y.term = .error .zeroDivisor := by
  rw [Denotes.unique (s := y.term) ⟨y.canon, hy⟩ denotes_zero]
  cases ptr <;> cases x.term <;> first | rfl | cases h

theorem Functor2.call_denotes (ptr : Functor2) (x y : Number) (h : ¬ ptr.Wrong x.val y.val)
    (hy : ptr.divides → y.val ≠ 0) : ∃ t, ptr.call x.term y.term = .ok t ∧ Denotes t (ptr.value x.val y.val) := by
  have hlarger := isLarger_spec x y
  cases ptr with
  | add2 => exact ⟨_, rfl, bpMathAdd_denotes x y⟩
  | sub2 => exact ⟨_, rfl, bpMathSub_denotes x y⟩
  | mul2 => exact bpMathMul_denotes x y
  | idiv2 => exact bpMathIdiv_denotes x y (hy rfl)
  | idivDiv => exact bpMathIdivDiv_denotes x y (hy rfl)
  | mod2 => exact bpMathMod_denotes x y (hy rfl) h
  | rem2 => exact bpMathRem_denotes x y (hy rfl)
  | and2 =>
    obtain ⟨hc, hb⟩ := (bpBitwiseAnd_spec x y).2 h
    exact ⟨_, rfl, hc, eq_of_testBit fun i => (hb i).trans (Int.testBit_land ..).symm⟩
  | or2 | capPsc =>
    obtain ⟨hc, hb⟩ := bpBitwiseOr_spec x y
    exact ⟨_, rfl, hc, eq_of_testBit fun i => (hb i).trans (Int.testBit_lor ..).symm⟩
  | xor2 =>
    obtain ⟨hc, hb⟩ := (bpBitwiseXor_spec x y).2 h
    exact ⟨_, rfl, hc, eq_of_testBit fun i => (hb i).trans (Int.testBit_lxor ..).symm⟩
  | max2 =>
    refine ⟨_, rfl, ?_⟩
    rw [bpMathMax]
    split_ifs at hlarger ⊢
    · exact ⟨x.canon, (max_eq_left hlarger).symm⟩
    · exact ⟨y.canon, (max_eq_right hlarger).symm⟩
  | min2 =>
    refine ⟨_, rfl, ?_⟩
    rw [bpMathMin]
    split_ifs at hlarger ⊢
    · exact ⟨y.canon, (min_eq_right hlarger).symm⟩
    · exact ⟨x.canon, (min_eq_left hlarger).symm⟩

theorem Evaluates.bind {res : Except EvalError Term} {val : Except EvalError ℤ} {f : Term → Except EvalError Term}
    {g : ℤ → Except EvalError ℤ} (h : Evaluates res val)
    (hf : ∀ x : Number, val = .ok x.val → Evaluates (f x.term) (g x.val)) : Evaluates (res >>= f) (val >>= g) := by
  cases val with
  | error e =>
    obtain rfl : res = .error e := h
    rfl
  | ok v =>
    obtain ⟨t, rfl, hc, rfl⟩ := h
    exact hf ⟨t, hc⟩ rfl

end

/-- Every expression evaluates to the canonical term of its number, or to the error that is met first from left to
right, unless a function is called with operands for which it is wrong. -/
theorem evalArith_spec (ex : Expr) (h : ex.Sound) : Evaluates (evalArith ex) ex.value := by
  induction ex with
  | num x => exact ⟨_, rfl, x.canon, rfl⟩
  | maxint | minint => exact ⟨_, rfl, denotes_makeint (by decide)⟩
  | var | other => rfl
  | op1 ptr ex1 ih =>
    refine (ih h).bind fun x _ => ?_
    obtain ⟨t, ht, hd⟩ := ptr.call_denotes x
    exact ⟨t, congrArg (Except.mapError _) ht, hd⟩
  | op2 ptr ex1 ex2 ih1 ih2 =>
    refine (ih1 h.1).bind fun x hx => (ih2 h.2.1).bind fun y hy => ?_
    split_ifs with hzero
    · rw [ptr.call_zero x y hzero.1 hzero.2]
      rfl
    · obtain ⟨t, ht, hd⟩ := ptr.call_denotes x y (h.2.2 _ _ hx hy) fun hdiv h0 => hzero ⟨hdiv, h0⟩
      exact ⟨t, congrArg (Except.mapError _) ht, hd⟩

/-- `maxint + 7 mod -2` -/
def maxintPlusMod : Expr := .op2 .add2 .maxint (.op2 .mod2 (.num (.ofInt 7)) (.num (.ofInt (-2))))

theorem evalArith_spec_maxint : ∃ t, evalArith maxintPlusMod = .ok t ∧ Denotes t (2 ^ 56 - 2) := by
  refine evalArith_spec maxintPlusMod ⟨trivial, ⟨trivial, trivial, ?_⟩, fun _ _ _ _ => id⟩
  rintro _ _ ⟨⟩ ⟨⟩ hwrong
  exact absurd hwrong.1 (by decide)

end Picat
