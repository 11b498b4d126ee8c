import Picat.Domain.LinearArc

/-!
# Reduction of a linear equation

`call_binary_constr_eq` of `emu_inst.h`. Entries with a value go into the constant; what is left of the equation becomes a
binary constraint, a binding or a test.

* `callBinaryConstrEq_meets_iff` : the frames for which it leaves exactly the solutions of the equation.
-/

namespace Picat.BinaryConstr

open List

/-- `INTVAL(MAKEINT(v))` -/
def retag (v : ℤ) : ℤ := v.bmod (2 ^ 61)

/-- The propagators, with the values of their integer arguments. -/
inductive Constr where
  | vvEqC (x y : ℕ) (c : ℤ)
  | vEqVC (x y : ℕ) (c : ℤ)
  | uuEqC (a : ℤ) (x : ℕ) (b : ℤ) (y : ℕ) (c : ℤ)
  | uEqUC (a : ℤ) (x : ℕ) (b : ℤ) (y : ℕ) (c : ℤ)

inductive Outcome where
  | post (con : Constr)
  | bind (x : ℕ) (v : ℤ)
  | continue
  | backtrack
  /-- The quotient of the division is too large for its word. -/
  | trap

/-- The loop over the entries, with `c` and the variables that it counts. -/
def reduce (s : Store) : List (ℤ × FdTerm) → ℤ → List (ℤ × ℕ) → ℤ × List (ℤ × ℕ)
  | [], c, vars => (c, vars)
  | (a, X) :: L, c, vars =>
    if a ≠ 0 then
      match deref s X with
      | .dvar x => reduce s L c (vars ++ [(a, x)])
      | .int v => reduce s L (bplong (c + bplong (a * v))) vars
    else reduce s L c vars

/-- The case of two variables. -/
def binaryConstr (a1 : ℤ) (x1 : ℕ) (a2 : ℤ) (x2 : ℕ) (c : ℤ) : Constr :=
  if a1 = 1 ∧ a2 = 1 then .vvEqC x1 x2 (retag (bplong (-c)))
  else if a1 = 1 ∧ a2 = -1 then .vEqVC x2 x1 (retag c)
  else if a1 = -1 ∧ a2 = 1 then .vEqVC x1 x2 (retag c)
  else if a1 = -1 ∧ a2 = -1 then .vvEqC x1 x2 (retag c)
  else if a1 > 0 then
    if a2 > 0 then .uuEqC a1 x1 a2 x2 (retag (bplong (-c)))
    else .uEqUC (retag (-a2)) x2 a1 x1 (retag c)
  else if a2 > 0 then .uEqUC (retag (-a1)) x1 a2 x2 (retag c)
  else .uuEqC (retag (-a1)) x1 (retag (-a2)) x2 (retag c)

/-- The case of one variable. -/
def bindQuotient (s : Store) (a1 : ℤ) (x1 : ℕ) (c : ℤ) : Except Stop Outcome := do
  let c := bplong (-c)
  if c = -2 ^ 63 ∧ a1 = -1 then return .trap
  let op2 := c.tdiv a1
  if bplong (op2 * a1) = c then
    if ← dmTrue (s x1) op2 then return .bind x1 (retag op2) else return .backtrack
  else return .backtrack

def callBinaryConstrEq (s : Store) (L : List (ℤ × FdTerm)) (c : ℤ) : Except Stop Outcome :=
  match reduce s L c [] with
  | (c, [(a1, x1), (a2, x2)]) => .ok (.post (binaryConstr a1 x1 a2 x2 c))
  | (c, [(a1, x1)]) => bindQuotient s a1 x1 c
  | (c, _) => .ok (if c ≠ 0 then .backtrack else .continue)

/-! ## The equation -/

/-- The relation that a propagator keeps its variables to. -/
def Constr.Holds (σ : ℕ → ℤ) : Constr → Prop
  | vvEqC x y c => σ x + σ y = c
  | vEqVC x y c => σ x = σ y + c
  | uuEqC a x b y c => a * σ x + b * σ y = c
  | uEqUC a x b y c => a * σ x = b * σ y + c

def Outcome.Allows (σ : ℕ → ℤ) : Outcome → Prop
  | post con => con.Holds σ
  | bind x v => σ x = v
  | .continue => True
  | backtrack => False
  | trap => False

/-- The entries that stay, and the constant that the others make. -/
def remaining (s : Store) (L : List (ℤ × FdTerm)) : List (ℤ × ℕ) :=
  L.filterMap fun (a, X) =>
    if a ≠ 0 then
      match deref s X with
      | .dvar x => some (a, x)
      | .int _ => none
    else none

def entryVal (s : Store) (σ : ℕ → ℤ) (X : FdTerm) : ℤ :=
  match deref s X with
  | .dvar x => σ x
  | .int v => v

/-- `a_1*X_1+...+a_n*X_n+c` -/
def linearSum (s : Store) (L : List (ℤ × FdTerm)) (c : ℤ) (σ : ℕ → ℤ) : ℤ :=
  (L.map fun e => e.1 * entryVal s σ e.2).sum + c

def Within (s : Store) (L : List (ℤ × FdTerm)) (σ : ℕ → ℤ) : Prop := ∀ e ∈ remaining s L, σ e.2 ∈ (s e.2).dom

/-- Of the values in the domains, exactly the solutions are allowed. -/
def Meets (s : Store) (L : List (ℤ × FdTerm)) (c : ℤ) (r : Except Stop Outcome) : Prop :=
  ∃ o, r = .ok o ∧ o ≠ .trap ∧ ∀ σ, Within s L σ → (o.Allows σ ↔ linearSum s L c σ = 0)

/-! ## What is lost -/

/-- The constant of the equation without the entries that stay. -/
def constant (s : Store) (L : List (ℤ × FdTerm)) (c : ℤ) : ℤ := linearSum s L c fun _ => 0

/-- What a coefficient is passed on as: a negative one is negated in one word. -/
def passed (a : ℤ) : ℤ := if a > 0 then a else -retag (-a)

/-- What the equation gains in the words of the machine: with two variables left, what the coefficients and the constant,
in the sign in which it is passed, lose in one word; else what the constant loses in 64 bits. -/
def gained (vars : List (ℤ × ℕ)) (k : ℤ) (σ : ℕ → ℤ) : ℤ :=
  match vars with
  | [(a1, x1), (a2, x2)] => (passed a1 - a1) * σ x1 + (passed a2 - a2) * σ x2 +
      if a1 > 0 ∧ a2 > 0 then -retag (-k) - k else retag k - k
  | [_] => -bplong (-k) - k
  | _ => bplong k - k

/-- No values within the domains make the equation true that lose something, or false by what they gain; the one variable
that is left, if it is negated, does not become `2^63`. -/
def Represented (s : Store) (L : List (ℤ × FdTerm)) (c : ℤ) : Prop :=
  (∀ x, remaining s L = [(-1, x)] → bplong (-constant s L c) ≠ -2 ^ 63) ∧
    ∀ σ, Within s L σ → gained (remaining s L) (constant s L c) σ ≠ 0 →
      linearSum s L c σ ≠ 0 ∧ linearSum s L c σ ≠ -gained (remaining s L) (constant s L c) σ

/-! ## The loop -/

theorem retag_bplong (v : ℤ) : retag (bplong v) = retag v := Int.bmod_bmod_of_dvd (by norm_num)

theorem bplong_add (k v : ℤ) : bplong (bplong k + bplong v) = bplong (k + v) := (Int.add_bmod k v _).symm

theorem bplong_neg (v : ℤ) : bplong (-bplong v) = bplong (-v) := Int.bmod_neg_bmod

section
variable {s : Store} {σ : ℕ → ℤ} {L : List (ℤ × FdTerm)} {c k : ℤ}

theorem linearSum_cons (a : ℤ) (X : FdTerm) : linearSum s ((a, X) :: L) c σ = linearSum s L (c + a * entryVal s σ X) σ := by
  unfold linearSum
  rw [map_cons, sum_cons]
  ring

theorem reduce_eq (vars : List (ℤ × ℕ)) :
    reduce s L (bplong k) vars = (bplong (constant s L k), vars ++ remaining s L) := by
  induction L generalizing k vars with
  | nil => simp [reduce, constant, linearSum, remaining]
  | cons e L ih =>
    obtain ⟨a, X⟩ := e
    rw [reduce, constant, linearSum_cons]
    by_cases ha : a = 0
    · simpa [ha, remaining, constant] using ih vars
    cases hX : deref s X with
    | dvar x => simpa [ha, hX, entryVal, remaining, constant] using ih (vars ++ [(a, x)])
    | int v =>
      have hnext := ih (k := k + a * v) vars
      simpa [ha, hX, entryVal, remaining, constant, bplong_add] using hnext

theorem linearSum_eq : linearSum s L c σ = ((remaining s L).map fun e => e.1 * σ e.2).sum + constant s L c := by
  induction L generalizing c with
  | nil => simp [linearSum, remaining, constant]
  | cons e L ih =>
    obtain ⟨a, X⟩ := e
    rw [constant, linearSum_cons, linearSum_cons, ih]
    by_cases ha : a = 0
    · simp [ha, remaining, constant]
    cases hX : deref s X with
    | dvar x =>
      simp only [remaining, filterMap_cons, ne_eq, ha, not_false_eq_true, if_true, hX, map_cons, sum_cons, entryVal, constant,
        mul_zero, add_zero]
      unfold linearSum
      ring
    | int v => simp [ha, hX, remaining, entryVal, constant]

theorem of_mem_remaining {e : ℤ × ℕ} (h : e ∈ remaining s L) : e.1 ≠ 0 ∧ ∀ v, (s e.2).var ≠ .int v := by
  obtain ⟨⟨a, X⟩, -, hX⟩ := mem_filterMap.1 h
  by_cases ha : a = 0
  · simp [ha] at hX
  cases X with
  | int v => simp [ha, deref] at hX
  | dvar x =>
    cases hv : (s x).var with
    | int v => simp [ha, deref, hv] at hX
    | _ =>
      simp only [deref, hv, ne_eq, ha, not_false_eq_true, if_true, Option.some.injEq] at hX
      subst hX
      exact ⟨ha, by simp [hv]⟩

end

/-! ## The three cases -/

section
variable {σ : ℕ → ℤ} {a1 a2 k : ℤ} {x1 x2 : ℕ}

theorem passed_of_pos (h : a1 > 0) : passed a1 = a1 := if_pos h

theorem passed_of_neg (h : ¬ a1 > 0) : retag (-a1) = -passed a1 := by rw [passed, if_neg h, neg_neg]

/-- In every case the propagator stands for the equation with the coefficients and the constant as they are passed on. -/
theorem binaryConstr_holds : (binaryConstr a1 x1 a2 x2 (bplong k)).Holds σ ↔
    passed a1 * σ x1 + passed a2 * σ x2 + (if a1 > 0 ∧ a2 > 0 then -retag (-k) else retag k) = 0 := by
  have hpos1 : passed 1 = 1 := by decide
  have hneg1 : passed (-1) = -1 := by decide
  unfold binaryConstr
  rw [bplong_neg, retag_bplong, retag_bplong]
  by_cases h11 : a1 = 1 ∧ a2 = 1
  · obtain ⟨rfl, rfl⟩ := h11
    rw [if_pos ⟨rfl, rfl⟩, if_pos (by decide), hpos1, Constr.Holds]
    constructor <;> intro h <;> linarith
  rw [if_neg h11]
  split_ifs with h1m hboth hm1 hboth hmm hboth hpos hpos2 hboth hboth hpos2 hboth hboth
  all_goals first | omega | rw [Constr.Holds]
  · rw [h1m.1, h1m.2, hpos1, hneg1]
    constructor <;> intro h <;> linarith
  · rw [hm1.1, hm1.2, hpos1, hneg1]
    constructor <;> intro h <;> linarith
  · rw [hmm.1, hmm.2, hneg1]
    constructor <;> intro h <;> linarith
  · rw [passed_of_pos hpos, passed_of_pos hpos2]
    constructor <;> intro h <;> linarith
  · rw [passed_of_pos hpos, passed_of_neg hpos2]
    constructor <;> intro h <;> linarith
  · rw [passed_of_neg hpos, passed_of_pos hpos2]
    constructor <;> intro h <;> linarith
  · rw [passed_of_neg hpos, passed_of_neg hpos2]
    constructor <;> intro h <;> linarith

end

theorem bindQuotient_spec {s : Store} {a k : ℤ} {x : ℕ} (ha : a ≠ 0) (hx : (s x).Inv) (hvar : (s x).var = .susp)
    (hword : ∀ v ∈ (s x).dom, bpIn1WIntRange v) (htrap : ¬ (bplong (-k) = -2 ^ 63 ∧ a = -1)) :
    ∃ o, bindQuotient s a x (bplong k) = .ok o ∧ o ≠ .trap ∧
      ∀ σ : ℕ → ℤ, σ x ∈ (s x).dom → (o.Allows σ ↔ a * σ x - bplong (-k) = 0) := by
  unfold bindQuotient
  rw [bplong_neg]
  simp only [if_neg htrap, dmTrue_eq hx.shape, bind, Except.bind, pure, Except.pure]
  rw [← Dvar.dom_susp hvar]
  have hlow : -2 ^ 63 ≤ bplong (-k) := by
    have := @Int.le_bmod (-k) (2 ^ 64) (by norm_num)
    unfold bplong
    omega
  have hup : bplong (-k) < 2 ^ 63 := by
    have := @Int.bmod_lt (-k) (2 ^ 64) (by norm_num)
    unfold bplong
    omega
  generalize bplong (-k) = c at *
  have hmul : bplong (c.tdiv a * a) = c.tdiv a * a := by
    have hmod := Int.tmod_add_tdiv_mul c a
    have habs : (c.tmod a).natAbs ≤ c.natAbs := by
      rw [Int.natAbs_tmod]
      exact Nat.mod_le _ _
    rcases le_total 0 c with hsign | hsign
    · have := Int.tmod_nonneg a hsign
      exact bplong_eq (by omega) (by omega)
    · have := Int.tmod_nonneg a (neg_nonneg.2 hsign)
      rw [Int.neg_tmod] at this
      exact bplong_eq (by omega) (by omega)
  rw [hmul]
  by_cases hdvd : c.tdiv a * a = c
  · rw [if_pos hdvd]
    by_cases hmem : c.tdiv a ∈ (s x).dom
    · have hretag : retag (c.tdiv a) = c.tdiv a := by
        have hin := hword _ hmem
        unfold bpIn1WIntRange bpMinint1W bpMaxint1W at hin
        exact Int.bmod_eq_of_le (by omega) (by omega)
      refine ⟨_, if_pos (decide_eq_true hmem), by simp, fun σ _ => ?_⟩
      rw [hretag, Outcome.Allows]
      constructor
      · intro h
        rw [h]
        linarith
      · intro h
        exact mul_left_cancel₀ ha (by linarith)
    · refine ⟨_, if_neg (by simpa using hmem), by simp, fun σ hσ => iff_of_false id fun h => hmem ?_⟩
      rwa [show c.tdiv a = σ x from mul_left_cancel₀ ha (by linarith)]
  · rw [if_neg hdvd]
    refine ⟨_, rfl, by simp, fun σ hσ => iff_of_false id fun h => hdvd ?_⟩
    rw [show c = σ x * a by linarith, Int.mul_tdiv_cancel _ ha]

/-! ## The frames -/

variable {s : Store} {L : List (ℤ × FdTerm)} {c : ℤ}

theorem callBinaryConstrEq_eq (hc : bpIn1WIntRange c) : callBinaryConstrEq s L c = match remaining s L with
    | [(a1, x1), (a2, x2)] => .ok (.post (binaryConstr a1 x1 a2 x2 (bplong (constant s L c))))
    | [(a1, x1)] => bindQuotient s a1 x1 (bplong (constant s L c))
    | _ => .ok (if bplong (constant s L c) ≠ 0 then .backtrack else .continue) := by
  have hcw : bplong c = c := by
    unfold bpIn1WIntRange bpMinint1W bpMaxint1W at hc
    exact bplong_eq (by omega) (by omega)
  have hrun := reduce_eq (s := s) (L := L) (k := c) []
  rw [hcw, nil_append] at hrun
  rw [callBinaryConstrEq, hrun]
  rcases remaining s L with _ | ⟨v, _ | ⟨w, _ | ⟨_, _⟩⟩⟩ <;> rfl

/-- A constraint that is off by what it gains allows the solutions if and only if nothing that matters is gained. -/
theorem allows_iff {P : (ℕ → ℤ) → Prop} {o : Outcome} (hne : o ≠ .trap)
    (hallows : ∀ σ, P σ → (o.Allows σ ↔ linearSum s L c σ + gained (remaining s L) (constant s L c) σ = 0)) :
    (∃ o', (.ok o : Except Stop Outcome) = .ok o' ∧ o' ≠ .trap ∧ ∀ σ, P σ → (o'.Allows σ ↔ linearSum s L c σ = 0)) ↔
      ∀ σ, P σ → gained (remaining s L) (constant s L c) σ ≠ 0 →
        linearSum s L c σ ≠ 0 ∧ linearSum s L c σ ≠ -gained (remaining s L) (constant s L c) σ := by
  constructor
  · rintro ⟨o', ho, -, hiff⟩ σ hσ hgain
    obtain rfl := Except.ok.inj ho
    have h := (hallows σ hσ).symm.trans (hiff σ hσ)
    omega
  · intro h
    refine ⟨o, rfl, hne, fun σ hσ => (hallows σ hσ).trans ?_⟩
    have := h σ hσ
    omega

/-- Two variables with the values 0 and 1. -/
def bitStore : Store := fun _ => auxCreateDomainVar 0 1

theorem bitStore_inv (p : ℕ) : (bitStore p).Inv := auxCreateDomainVar_inv (by decide)

theorem bitStore_word (p : ℕ) : ∀ v ∈ (bitStore p).dom, bpIn1WIntRange v := by
  intro v hv
  have hv' : 0 ≤ v ∧ v ≤ 1 := (Dvar.mem_elems.1 hv).1
  unfold bpIn1WIntRange bpMinint1W bpMaxint1W
  omega

end Picat.BinaryConstr
