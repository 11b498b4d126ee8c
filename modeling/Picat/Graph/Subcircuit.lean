import Mathlib.Data.Nat.Bitwise
import Mathlib.Tactic.IntervalCases
import Mathlib.Analysis.SpecialFunctions.Log.Base
import Picat.Graph.Circuit
import Picat.Lib.Periods

/-!
# Positions as states of a linear feedback shift register

* `runsThrough_lfsrSucc` : the register of every width from 2 to 14 runs through all its states but 0.
-/

namespace Picat.Graph
open Finset Periods

/-- The bits of a position, lowest first: `Vect[1]` is the head. -/
def decToBin : (nb : ℕ) → (val : ℕ) → List Bool
  | 0, _ => []
  | nb + 1, val => (val % 2 == 1) :: decToBin nb (val / 2)

section
variable (b1 b2 : Bool)

def entailEquiv (x y : Bool) : Bool :=
  (!b1 || !b2 || !x || y) && (!b1 || !b2 || x || !y)

/-- `entail_xor` of two inputs. -/
def entailXor (y x1 x2 : Bool) : Bool :=
  (!b1 || !b2 || !y || x1 || x2) &&
  (!b1 || !b2 || y || !x1 || x2) &&
  (!b1 || !b2 || y || x1 || !x2) &&
  (!b1 || !b2 || !y || !x1 || !x2)

def entailXor4 (y x1 x2 x3 x4 : Bool) : Bool :=
  (!b1 || !b2 || !y || x1 || x2 || x3 || x4) &&
  (!b1 || !b2 || y || !x1 || x2 || x3 || x4) &&
  (!b1 || !b2 || y || x1 || !x2 || x3 || x4) &&
  (!b1 || !b2 || !y || !x1 || !x2 || x3 || x4) &&
  (!b1 || !b2 || y || x1 || x2 || !x3 || x4) &&
  (!b1 || !b2 || !y || !x1 || x2 || !x3 || x4) &&
  (!b1 || !b2 || !y || x1 || !x2 || !x3 || x4) &&
  (!b1 || !b2 || y || !x1 || !x2 || !x3 || x4) &&
  (!b1 || !b2 || y || x1 || x2 || x3 || !x4) &&
  (!b1 || !b2 || !y || !x1 || x2 || x3 || !x4) &&
  (!b1 || !b2 || !y || x1 || !x2 || x3 || !x4) &&
  (!b1 || !b2 || y || !x1 || !x2 || x3 || !x4) &&
  (!b1 || !b2 || !y || x1 || x2 || !x3 || !x4) &&
  (!b1 || !b2 || y || !x1 || x2 || !x3 || !x4) &&
  (!b1 || !b2 || y || x1 || !x2 || !x3 || !x4) &&
  (!b1 || !b2 || !y || !x1 || !x2 || !x3 || !x4)

/-- The taps of the register of width `nb`; there is no rule for the other widths. -/
def entailTaps (nb : ℕ) (y1 : Bool) (x : ℕ → Bool) : Bool :=
  match nb with
  | 2 => entailXor b1 b2 y1 (x 1) (x 2)
  | 3 => entailXor b1 b2 y1 (x 2) (x 3)
  | 4 => entailXor b1 b2 y1 (x 3) (x 4)
  | 5 => entailXor b1 b2 y1 (x 3) (x 5)
  | 6 => entailXor b1 b2 y1 (x 5) (x 6)
  | 7 => entailXor b1 b2 y1 (x 6) (x 7)
  | 8 => entailXor4 b1 b2 y1 (x 4) (x 5) (x 6) (x 8)
  | 9 => entailXor b1 b2 y1 (x 5) (x 9)
  | 10 => entailXor b1 b2 y1 (x 7) (x 10)
  | 11 => entailXor b1 b2 y1 (x 9) (x 11)
  | 12 => entailXor4 b1 b2 y1 (x 4) (x 10) (x 11) (x 12)
  | 13 => entailXor4 b1 b2 y1 (x 8) (x 11) (x 12) (x 13)
  | 14 => entailXor4 b1 b2 y1 (x 2) (x 12) (x 13) (x 14)
  | _ => false

/-- `B -> Y = succ(X)`: every bit moves one place up, and the taps give the lowest one. -/
def entailLfsrSuccAux (nb : ℕ) (x y : ℕ → Bool) : Prop :=
  (∀ i ∈ Icc 1 (nb - 1), entailEquiv b1 b2 (y (i + 1)) (x i) = true) ∧ entailTaps b1 b2 nb (y 1) x = true

/-- The log encoding of a position has the bits that `dec_to_bin` gives for a known one. -/
def entailLfsrSucc (nb x y : ℕ) : Prop :=
  entailLfsrSuccAux b1 b2 nb (fun i => (decToBin nb x).getD (i - 1) false) fun i => (decToBin nb y).getD (i - 1) false

end

def lfsrTaps : ℕ → ℕ → ℕ
  | 2, x => x >>> 0 + x >>> 1
  | 3, x => x >>> 1 + x >>> 2
  | 4, x => x >>> 2 + x >>> 3
  | 5, x => x >>> 2 + x >>> 4
  | 6, x => x >>> 4 + x >>> 5
  | 7, x => x >>> 5 + x >>> 6
  | 8, x => x >>> 3 + x >>> 4 + x >>> 5 + x >>> 7
  | 9, x => x >>> 4 + x >>> 8
  | 10, x => x >>> 6 + x >>> 9
  | 11, x => x >>> 8 + x >>> 10
  | 12, x => x >>> 3 + x >>> 9 + x >>> 10 + x >>> 11
  | 13, x => x >>> 7 + x >>> 10 + x >>> 11 + x >>> 12
  | 14, x => x >>> 1 + x >>> 11 + x >>> 12 + x >>> 13
  | _, _ => 0

def lfsrSucc (nb x : ℕ) : ℕ := (2 * x + lfsrTaps nb x % 2) % 2 ^ nb

/-! ## The clauses -/

theorem entailEquiv_iff {b1 b2 x y : Bool} : entailEquiv b1 b2 x y = true ↔ (b1 = true → b2 = true → x = y) := by
  revert b1 b2 x y
  decide

theorem entailXor_iff {b1 b2 y x1 x2 : Bool} :
    entailXor b1 b2 y x1 x2 = true ↔ (b1 = true → b2 = true → y = (x1 ^^ x2)) := by
  revert b1 b2 y x1 x2
  decide

theorem entailXor4_iff {b1 b2 y x1 x2 x3 x4 : Bool} :
    entailXor4 b1 b2 y x1 x2 x3 x4 = true ↔ (b1 = true → b2 = true → y = (x1 ^^ x2 ^^ x3 ^^ x4)) := by
  revert b1 b2 y x1 x2 x3 x4
  decide

theorem getD_decToBin {nb i : ℕ} (hi : i < nb) (x : ℕ) : (decToBin nb x).getD i false = x.testBit i := by
  induction nb generalizing i x with
  | zero => exact absurd hi (Nat.not_lt_zero i)
  | succ nb ih =>
    unfold decToBin
    cases i with
    | zero =>
      rw [List.getD_cons_zero, Nat.testBit_zero]
      rfl
    | succ i =>
      rw [List.getD_cons_succ, ih (by omega), Nat.testBit_succ]

theorem odd_add (a b : ℕ) : decide ((a + b) % 2 = 1) = (decide (a % 2 = 1) ^^ decide (b % 2 = 1)) := by
  rw [Nat.add_mod]
  rcases Nat.mod_two_eq_zero_or_one a with ha | ha <;> rcases Nat.mod_two_eq_zero_or_one b with hb | hb <;>
    rw [ha, hb] <;> rfl

theorem odd_shiftRight (x k : ℕ) : decide ((x >>> k) % 2 = 1) = x.testBit k := by
  rw [Nat.shiftRight_eq_div_pow, Nat.testBit_eq_decide_div_mod_eq]

section
variable {b1 b2 : Bool} {nb x y : ℕ}

theorem entailTaps_iff (h2 : 2 ≤ nb) (h14 : nb ≤ 14) {y1 : Bool} {vect : ℕ → Bool}
    (hx : ∀ i ∈ Icc 1 nb, vect i = x.testBit (i - 1)) :
    entailTaps b1 b2 nb y1 vect = true ↔ (b1 = true → b2 = true → y1 = decide (lfsrTaps nb x % 2 = 1)) := by
  interval_cases nb <;> unfold entailTaps lfsrTaps <;>
    simp (disch := decide) only [entailXor_iff, entailXor4_iff, hx, odd_add, odd_shiftRight, Nat.reduceSub]

theorem testBit_lfsrSucc_zero (h2 : 2 ≤ nb) : (lfsrSucc nb x).testBit 0 = decide (lfsrTaps nb x % 2 = 1) := by
  unfold lfsrSucc
  rw [Nat.testBit_mod_two_pow, Nat.testBit_zero, decide_eq_true (by omega : 0 < nb), Bool.true_and]
  congr 2
  omega

theorem testBit_lfsrSucc_succ (i : ℕ) : (lfsrSucc nb x).testBit (i + 1) = (decide (i + 1 < nb) && x.testBit i) := by
  unfold lfsrSucc
  rw [Nat.testBit_mod_two_pow, Nat.testBit_succ]
  congr 2
  omega

theorem entailLfsrSucc_iff (h2 : 2 ≤ nb) (h14 : nb ≤ 14) (hy : y < 2 ^ nb) :
    entailLfsrSucc b1 b2 nb x y ↔ (b1 = true → b2 = true → y = lfsrSucc nb x) := by
  have hbit : ∀ x : ℕ, ∀ i ∈ Icc 1 nb, (decToBin nb x).getD (i - 1) false = x.testBit (i - 1) := by
    intro x i hi
    rw [mem_Icc] at hi
    exact getD_decToBin (by omega) x
  unfold entailLfsrSucc entailLfsrSuccAux
  simp only [entailEquiv_iff]
  rw [entailTaps_iff h2 h14 (hbit x), hbit y 1 (mem_Icc.2 ⟨le_refl 1, by omega⟩)]
  constructor
  · rintro ⟨hup, htaps⟩ h1 h2'
    apply Nat.eq_of_testBit_eq
    intro i
    cases i with
    | zero =>
      rw [testBit_lfsrSucc_zero h2]
      exact htaps h1 h2'
    | succ i =>
      rw [testBit_lfsrSucc_succ]
      by_cases hi : i + 1 < nb
      · have hup' := hup (i + 1) (mem_Icc.2 ⟨by omega, by omega⟩) h1 h2'
        rw [hbit y _ (mem_Icc.2 ⟨by omega, by omega⟩), hbit x _ (mem_Icc.2 ⟨by omega, by omega⟩)] at hup'
        rw [decide_eq_true hi, Bool.true_and]
        exact hup'
      · rw [decide_eq_false hi, Bool.false_and]
        exact Nat.testBit_eq_false_of_lt (hy.trans_le (Nat.pow_le_pow_right (by decide) (by omega)))
  · intro hsucc
    refine ⟨?_, ?_⟩
    · intro i hi h1 h2'
      rw [mem_Icc] at hi
      rw [hbit y _ (mem_Icc.2 ⟨by omega, by omega⟩), hbit x _ (mem_Icc.2 ⟨by omega, by omega⟩),
        hsucc h1 h2', Nat.add_sub_cancel]
      obtain ⟨j, rfl⟩ : ∃ j, i = j + 1 := ⟨i - 1, by omega⟩
      rw [testBit_lfsrSucc_succ, decide_eq_true (by omega : j + 1 < nb), Bool.true_and, Nat.add_sub_cancel]
    · intro h1 h2'
      rw [hsucc h1 h2']
      exact testBit_lfsrSucc_zero h2

/-! ## The period -/

theorem lfsrSucc_lt : lfsrSucc nb x < 2 ^ nb := by
  unfold lfsrSucc
  exact Nat.mod_lt _ (Nat.two_pow_pos nb)

theorem lfsrSucc_eq (nb : ℕ) : lfsrSucc nb = fun x => (2 * x + lfsrTaps nb x % 2) % 2 ^ nb := by
  funext x
  rfl

theorem firstReturn_lfsrSucc (h2 : 2 ≤ nb) (h14 : nb ≤ 14) :
    firstReturn (lfsrSucc nb) 1 (2 ^ nb - 1) (lfsrSucc nb 1) = true := by
  interval_cases nb <;> simp only [lfsrSucc_eq, lfsrTaps, Nat.reducePow, Nat.reduceSub] <;> decide +kernel

theorem runsThrough_lfsrSucc (h2 : 2 ≤ nb) (h14 : nb ≤ 14) : RunsThrough (lfsrSucc nb) (2 ^ nb - 1) where
  le x := by
    have := @lfsrSucc_lt nb x
    omega
  zero := by interval_cases nb <;> rfl
  pos := by
    have := Nat.pow_le_pow_right (by decide : 0 < 2) h2
    omega
  period := minimalPeriod_of_firstReturn (firstReturn_lfsrSucc h2 h14)

end

end Picat.Graph

/-! # `subcircuit`: one cycle through the nodes that are not their own successors -/

namespace Picat.Graph
open Finset Cycles

variable {ι : Type} [DecidableEq ι]

/-- `round(log(2,N)+0.5)`. -/
def subcircuitNB (n : ℕ) : ℕ := Nat.log 2 n + 1

theorem subcircuitNB_eq (n : ℕ) : (subcircuitNB n : ℤ) = round (Real.logb 2 n + 0.5) := by
  have hhalf : Real.logb 2 n + 0.5 + 1 / 2 = Real.logb 2 n + 1 := by ring
  have hfloor := @Real.floor_logb_natCast 2 (n : ℝ) (Nat.cast_nonneg n)
  rw [Int.log_natCast] at hfloor
  rw [round_eq, hhalf, Int.floor_add_one]
  unfold subcircuitNB
  rw [Nat.cast_succ]
  congr 1
  exact hfloor.symm

section
variable (n : ℕ) (A : ℕ → ι) (dom : ι → Finset ℕ)

/-- `subcircuit_no_loop`: no node can be its own successor. -/
def subcircuitNoLoop : Prop := ∀ I ∈ Icc 1 n, I ∉ dom (A I)

instance : Decidable (subcircuitNoLoop n A dom) := inferInstanceAs (Decidable (∀ I ∈ Icc 1 n, _))

/-- The domains after `A :: 1..N`. -/
def within (x : ι) : Finset ℕ := dom x ∩ Icc 1 n

def subcircuitMinK : ℕ := count (Icc 1 n) fun I => decide (I ∉ within n dom (A I))

/-- Nodes that may be in: all but those that are known to be their own successors. -/
def subcircuitMaxK : ℕ := n - count (Icc 1 n) fun I => decide (within n dom (A I) = {I})

end

structure SubcircuitSeen extends CircuitSeen where
  /-- `H[I,I] == 1` -/
  out : ℕ → Bool

/-- The variables beside those of `A`. -/
structure SubcircuitVars where
  h : ℕ → ℕ → Bool
  k : ℕ
  kGt1 : Bool
  kGt2 : Bool
  start : ℕ → Bool
  hasStarted : ℕ → Bool
  p : ℕ → ℕ

section
variable (n : ℕ) (A : ℕ → ι) (dom : ι → Finset ℕ) (seen : SubcircuitSeen) (σ : ι → ℕ) (x : SubcircuitVars)

/-- What the last rule of `subcircuit_aux` posts before the positions. -/
structure SubcircuitDegree : Prop where
  inDom : ∀ I ∈ Icc 1 n, σ (A I) ∈ within n dom (A I)
  cell : ∀ I ∈ Icc 1 n, ∀ J ∈ Icc 1 n, J ∉ within n dom (A I) → x.h I J = false
  kDom : x.k ∈ Icc (subcircuitMinK n A dom) (subcircuitMaxK n A dom)
  channel : ∀ I ∈ Icc 1 n, ∀ J ∈ Icc 1 n, J ∈ within n dom (A I) → seen.channel I J = false →
    (x.h I J = true ↔ σ (A I) = J)
  into : ∀ I ∈ Icc 1 n, count (Icc 1 n) (fun J => x.h J I) = 1
  kSum : x.k = count (Icc 1 n) fun I => !x.h I I
  gt : if 2 < subcircuitMinK n A dom then x.kGt2 = true ∧ x.kGt1 = true
    else (x.kGt2 = true ↔ 2 < x.k) ∧ (x.kGt1 = true ↔ 1 < x.k) ∧ (x.kGt2 = true → x.kGt1 = true)
  chooseStart : StartPattern n (fun I => !x.h I I) x.kGt1 (subcircuitMinK n A dom) x.start x.hasStarted

structure SubcircuitAux : Prop extends SubcircuitDegree n A dom seen σ x where
  places : ∀ I ∈ Icc 1 n, x.p I < 2 ^ subcircuitNB n
  out : ∀ I ∈ Icc 1 n, if seen.out I then x.p I = 0 else (x.h I I = true ↔ x.p I = 0)
  first : ∀ I ∈ Icc 1 n, x.start I = true → x.p I = 1
  step : ∀ I ∈ Icc 1 n, ∀ J ∈ Icc 1 n, I ≠ J → J ∈ within n dom (A I) → seen.step I J = false →
    (x.h I J = true → x.h J J = false) ∧ (x.h I J = true → x.h I I = false) ∧
    (I < J → x.kGt2 = false ∨ x.h I J = false ∨ x.h J I = false) ∧
    entailLfsrSucc (!x.start J) (x.h I J) (subcircuitNB n) (x.p I) (x.p J)

/-- The rules of `subcircuit_aux`. -/
def subcircuitAux : Prop :=
  if subcircuitNoLoop n A dom then circuitAux n A dom seen.toCircuitSeen σ x.h x.p
  else if n = 1 then σ (A 1) = 1
  else SubcircuitAux n A dom seen σ x

end

def SubcircuitSeen.Sound (seen : SubcircuitSeen) (n : ℕ) (A : ℕ → ι) (dom : ι → Finset ℕ) : Prop :=
  if subcircuitNoLoop n A dom then seen.toCircuitSeen.Sound n A dom
  else ∀ σ x, (SubcircuitDegree n A dom seen σ x → ∀ I ∈ Icc 1 n, seen.out I = true → x.h I I = true) ∧
    (SubcircuitAux n A dom seen σ x → ∀ I ∈ Icc 1 n, ∀ J ∈ Icc 1 n,
      (seen.channel I J = true → x.h I J = false) ∧ (seen.step I J = true → x.h I J = false))

/-! ## Nodes that are in -/

/-- The nodes with `A[I] != I`. -/
def inCircuit (n : ℕ) (A : ℕ → ι) (σ : ι → ℕ) : Finset ℕ := (Icc 1 n).filter fun I => σ (A I) ≠ I

def InSucc (n : ℕ) (A : ℕ → ι) (σ : ι → ℕ) (I J : ℕ) : Prop := I ∈ inCircuit n A σ ∧ σ (A I) = J

section
variable {n : ℕ} {A : ℕ → ι} {dom : ι → Finset ℕ} {seen : SubcircuitSeen} {σ : ι → ℕ} {x : SubcircuitVars}

omit [DecidableEq ι]

theorem mem_inCircuit {I : ℕ} : I ∈ inCircuit n A σ ↔ I ∈ Icc 1 n ∧ σ (A I) ≠ I := by
  unfold inCircuit
  exact mem_filter

theorem linked_inSucc (hmaps : ∀ I ∈ Icc 1 n, σ (A I) ∈ Icc 1 n)
    (hinj : Set.InjOn (fun I => σ (A I)) (Icc 1 n : Finset ℕ)) : Linked (InSucc n A σ) (inCircuit n A σ) := by
  have hl := linked_succ hmaps hinj
  refine ⟨?_, ?_, ?_⟩
  · rintro I J ⟨hI, rfl⟩
    have hI' := mem_inCircuit.1 hI
    refine ⟨hI, mem_inCircuit.2 ⟨hmaps I hI'.1, ?_⟩⟩
    intro hfix
    exact hI'.2 (hinj (mem_coe.2 (hmaps I hI'.1)) (mem_coe.2 hI'.1) hfix)
  · intro I hI
    exact ⟨σ (A I), ⟨hI, rfl⟩, fun J hJ => hJ.2.symm⟩
  · intro J hJ
    have hJ' := mem_inCircuit.1 hJ
    obtain ⟨I, hIJ, huniq⟩ := hl.into J hJ'.1
    have hI : I ∈ inCircuit n A σ := by
      refine mem_inCircuit.2 ⟨hIJ.1, ?_⟩
      rw [hIJ.2]
      rintro rfl
      exact hJ'.2 hIJ.2
    exact ⟨I, ⟨hI, hIJ.2⟩, fun K hK => huniq K ⟨(mem_inCircuit.1 hK.1).1, hK.2⟩⟩

theorem card_inCircuit_le : (inCircuit n A σ).card ≤ n := by
  have := card_filter_le (Icc 1 n) fun I => σ (A I) ≠ I
  rw [Nat.card_Icc, Nat.add_sub_cancel] at this
  exact this

section
variable (hno : subcircuitNoLoop n A dom) (hσ : ∀ I ∈ Icc 1 n, σ (A I) ∈ dom (A I))
include hno hσ

theorem inCircuit_of_noLoop : inCircuit n A σ = Icc 1 n := by
  unfold inCircuit
  apply filter_true_of_mem
  intro I hI hfix
  have hmem := hσ I hI
  rw [hfix] at hmem
  exact hno I hI hmem

theorem inSucc_of_noLoop : InSucc n A σ = Succ n A σ := by
  funext I J
  unfold InSucc Succ
  rw [inCircuit_of_noLoop hno hσ]

end

theorem two_le_subcircuitNB (hn : 2 ≤ n) : 2 ≤ subcircuitNB n := by
  have := Nat.log_pos one_lt_two hn
  unfold subcircuitNB
  omega

theorem subcircuitNB_le (hn : 2 ≤ n) (hn14 : n < 2 ^ 14) : subcircuitNB n ≤ 14 := by
  have := Nat.log_lt_of_lt_pow (by omega) hn14
  unfold subcircuitNB
  omega

theorem lt_two_pow_subcircuitNB : n < 2 ^ subcircuitNB n := Nat.lt_pow_succ_log_self one_lt_two n

end

section
variable {n : ℕ} {A : ℕ → ι} {dom : ι → Finset ℕ} {seen : SubcircuitSeen} {σ : ι → ℕ} {x : SubcircuitVars}

/-! ## Soundness -/

section
variable (hsound : seen.Sound n A dom) (hno : ¬ subcircuitNoLoop n A dom)
include hsound hno

theorem SubcircuitSeen.Sound.out
    (hx : SubcircuitDegree n A dom seen σ x) : ∀ I ∈ Icc 1 n, seen.out I = true → x.h I I = true := by
  unfold SubcircuitSeen.Sound at hsound
  rw [if_neg hno] at hsound
  exact (hsound σ x).1 hx

theorem SubcircuitSeen.Sound.cell
    (hx : SubcircuitAux n A dom seen σ x) {I J : ℕ} (hI : I ∈ Icc 1 n) (hJ : J ∈ Icc 1 n) (ht : x.h I J = true) :
    seen.channel I J = false ∧ seen.step I J = false := by
  unfold SubcircuitSeen.Sound at hsound
  rw [if_neg hno] at hsound
  obtain ⟨hchannel, hstep⟩ := (hsound σ x).2 hx I hI J hJ
  constructor
  · by_contra hs
    rw [hchannel (eq_true_of_ne_false hs)] at ht
    exact Bool.false_ne_true ht
  · by_contra hs
    rw [hstep (eq_true_of_ne_false hs)] at ht
    exact Bool.false_ne_true ht

end

theorem SubcircuitAux.h_iff (hx : SubcircuitAux n A dom seen σ x) (hsound : seen.Sound n A dom)
    (hno : ¬ subcircuitNoLoop n A dom) :
    (∀ I ∈ Icc 1 n, ∀ J ∈ Icc 1 n, x.h I J = true ↔ σ (A I) = J) ∧
      Set.InjOn (fun I => σ (A I)) (Icc 1 n : Finset ℕ) := by
  refine matrix_iff (fun I hI => (mem_inter.1 (hx.inDom I hI)).2) ?_ hx.into
  intro I hI J hJ ht
  have hmem : J ∈ within n dom (A I) := by
    by_contra hout
    rw [hx.cell I hI J hJ hout] at ht
    exact Bool.false_ne_true ht
  exact (hx.channel I hI J hJ hmem (hsound.cell hno hx hI hJ ht).1).1 ht

section
variable (hn : 2 ≤ n) (hn14 : n < 2 ^ 14) (hx : SubcircuitAux n A dom seen σ x) (hsound : seen.Sound n A dom)
  (hno : ¬ subcircuitNoLoop n A dom)
include hn hn14 hx hsound hno

theorem SubcircuitAux.next {I J : ℕ} (hIJ : InSucc n A σ I J)
    (hstart : x.start J = false) : x.p J = lfsrSucc (subcircuitNB n) (x.p I) := by
  obtain ⟨hI, rfl⟩ := hIJ
  obtain ⟨hI, hne⟩ := mem_inCircuit.1 hI
  have hmem := hx.inDom I hI
  have hJ := (mem_inter.1 hmem).2
  have ht := ((hx.h_iff hsound hno).1 I hI _ hJ).2 rfl
  have hstep := (hsound.cell hno hx hI hJ ht).2
  have hclauses := (hx.step I hI _ hJ hne.symm hmem hstep).2.2.2
  rw [entailLfsrSucc_iff (two_le_subcircuitNB hn) (subcircuitNB_le hn hn14) (hx.places _ hJ), hstart] at hclauses
  exact hclauses rfl ht

theorem SubcircuitAux.sound (hin : (inCircuit n A σ).Nonempty) : OneCycle (InSucc n A σ) (inCircuit n A σ) := by
  obtain ⟨hiff, hinj⟩ := hx.h_iff hsound hno
  have hloop : ∀ I ∈ Icc 1 n, x.h I I = false ↔ σ (A I) ≠ I := by
    intro I hI
    rw [← Bool.not_eq_true, hiff I hI I hI]
  obtain ⟨v, hv⟩ := hin
  obtain ⟨hvN, hvne⟩ := mem_inCircuit.1 hv
  obtain ⟨s, hsN, hs⟩ := hx.chooseStart.exists_start hvN (by rw [(hloop v hvN).2 hvne]; rfl)
  have hsS : s ∈ inCircuit n A σ := by
    refine mem_inCircuit.2 ⟨hsN, (hloop s hsN).1 ?_⟩
    by_contra hh
    rw [Bool.not_eq_false] at hh
    rw [hx.chooseStart.out s hsN (by rw [hh]; rfl)] at hs
    exact Bool.false_ne_true hs
  refine (linked_inSucc (fun I hI => (mem_inter.1 (hx.inDom I hI)).2) hinj).oneCycle_of_rank hsS x.p
    (lfsrSucc (subcircuitNB n)) ?_ ?_
  · intro I J hIJ hne
    apply hx.next hn hn14 hsound hno hIJ
    by_contra hstart
    rw [Bool.not_eq_false] at hstart
    have hJ : J ∈ Icc 1 n := by
      rw [← hIJ.2]
      exact (mem_inter.1 (hx.inDom I (mem_inCircuit.1 hIJ.1).1)).2
    exact hne (hx.chooseStart.unique hJ hsN hstart hs)
  · intro I hI k hk hklt
    obtain ⟨hIN, hIne⟩ := mem_inCircuit.1 hI
    have hpos : x.p I ≠ 0 := by
      have hout := hx.out I hIN
      split_ifs at hout with hseen
      · exact absurd ((hiff I hIN I hIN).1 (hsound.out hno hx.toSubcircuitDegree I hIN hseen)) hIne
      · exact fun h0 => hIne ((hiff I hIN I hIN).1 (hout.2 h0))
    have hlt := hx.places I hIN
    have hcard := @card_inCircuit_le _ n A σ
    have hbits := @lt_two_pow_subcircuitNB n
    exact (runsThrough_lfsrSucc (two_le_subcircuitNB hn) (subcircuitNB_le hn hn14)).iterate_ne (by omega) (by omega)
      hk (by omega)

end

/-! ## Completeness -/

/-- Positions for one cycle: the states that follow 1, from the first node that is in. -/
structure CyclePlaces (n : ℕ) (A : ℕ → ι) (σ : ι → ℕ) (minK : ℕ) (start hasStarted : ℕ → Bool) (p : ℕ → ℕ) : Prop where
  pattern : StartPattern n (fun I => decide (σ (A I) ≠ I)) (decide (1 < (inCircuit n A σ).card)) minK start hasStarted
  lt : ∀ I, p I < 2 ^ subcircuitNB n
  out : ∀ I ∈ Icc 1 n, σ (A I) = I ↔ p I = 0
  first : ∀ I, start I = true → p I = 1
  step : ∀ I J, InSucc n A σ I J → start J = false → p J = lfsrSucc (subcircuitNB n) (p I)

omit [DecidableEq ι] in
theorem count_inCircuit : count (Icc 1 n) (fun I => decide (σ (A I) ≠ I)) = (inCircuit n A σ).card := by
  unfold count inCircuit
  simp only [decide_eq_true_eq]

omit [DecidableEq ι] in
theorem exists_cyclePlaces (hn : 2 ≤ n) (hn14 : n < 2 ^ 14) (hcyc : OneCycle (InSucc n A σ) (inCircuit n A σ))
    {minK : ℕ} (hmin : minK ≤ (inCircuit n A σ).card) :
    ∃ start hasStarted p, CyclePlaces n A σ minK start hasStarted p := by
  rcases (inCircuit n A σ).eq_empty_or_nonempty with hempty | hne
  · -- no node is in
    have hfix : ∀ I ∈ Icc 1 n, σ (A I) = I := by
      intro I hI
      by_contra hIne
      have := mem_inCircuit.2 ⟨hI, hIne⟩
      rw [hempty] at this
      exact notMem_empty I this
    have hcard : (inCircuit n A σ).card = 0 := by rw [hempty, card_empty]
    refine ⟨fun _ => false, fun _ => false, fun _ => 0, StartPattern.of_none ?_ (by omega) ?_ (by omega), ?_, ?_, ?_, ?_⟩
    · intro I hI
      exact decide_eq_false fun h => h (hfix I hI)
    · rw [hcard]
      rfl
    · exact fun _ => Nat.two_pow_pos _
    · exact fun I hI => ⟨fun _ => rfl, fun _ => hfix I hI⟩
    · exact fun _ h => absurd h Bool.false_ne_true
    · intro I J hIJ
      have := hIJ.1
      rw [hempty] at this
      exact absurd this (notMem_empty I)
  · have hruns := runsThrough_lfsrSucc (two_le_subcircuitNB hn) (subcircuitNB_le hn hn14)
    have hs := (inCircuit n A σ).min'_mem hne
    set s := (inCircuit n A σ).min' hne with hsdef
    obtain ⟨hsN, hsne⟩ := mem_inCircuit.1 hs
    obtain ⟨pos, hpos0, -, hpos, -⟩ := hcyc.exists_position hs
    have hfirst : ∀ I ∈ Icc 1 n, decide (σ (A I) ≠ I) = true → s ≤ I := by
      intro I hI hIne
      exact min'_le _ I (mem_inCircuit.2 ⟨hI, of_decide_eq_true hIne⟩)
    refine ⟨_, _, fun I => if σ (A I) = I then 0 else (lfsrSucc (subcircuitNB n))^[pos I] 1,
      StartPattern.of_first hsN (decide_eq_true hsne) hfirst (by rw [count_inCircuit]; exact hmin), ?_, ?_, ?_, ?_⟩
    · intro I
      split_ifs
      · exact Nat.two_pow_pos _
      · have := hruns.iterate_le (pos I)
        have := Nat.two_pow_pos (subcircuitNB n)
        omega
    · intro I _
      have := hruns.iterate_pos (pos I)
      split_ifs with hfix
      · exact ⟨fun _ => rfl, fun _ => hfix⟩
      · constructor
        · exact fun h => absurd h hfix
        · intro h0
          omega
    · intro I hI
      rw [decide_eq_true_eq] at hI
      rw [hI, if_neg hsne, hpos0]
      rfl
    · intro I J hIJ hJ
      rw [decide_eq_false_iff_not] at hJ
      have hJin := (hcyc.1.mem I J hIJ).2
      rw [if_neg (mem_inCircuit.1 hIJ.1).2, if_neg (mem_inCircuit.1 hJin).2, hpos I J hIJ hJ,
        Function.iterate_succ_apply']

omit [DecidableEq ι] in
theorem subcircuitMinK_le (hσ : ∀ I ∈ Icc 1 n, σ (A I) ∈ within n dom (A I)) :
    subcircuitMinK n A dom ≤ (inCircuit n A σ).card := by
  unfold subcircuitMinK
  rw [← count_inCircuit]
  unfold count
  apply card_le_card
  intro I hI
  obtain ⟨hI, hout⟩ := mem_filter.1 hI
  refine mem_filter.2 ⟨hI, decide_eq_true ?_⟩
  intro hfix
  have hmem := hσ I hI
  rw [hfix] at hmem
  exact of_decide_eq_true hout hmem

omit [DecidableEq ι] in
theorem le_subcircuitMaxK (hσ : ∀ I ∈ Icc 1 n, σ (A I) ∈ within n dom (A I)) :
    (inCircuit n A σ).card ≤ subcircuitMaxK n A dom := by
  have hdisj : Disjoint (inCircuit n A σ) ((Icc 1 n).filter fun I => decide (within n dom (A I) = {I}) = true) := by
    rw [disjoint_left]
    intro I hI hfix
    have hmem := hσ I (mem_inCircuit.1 hI).1
    rw [of_decide_eq_true (mem_filter.1 hfix).2, mem_singleton] at hmem
    exact (mem_inCircuit.1 hI).2 hmem
  have hcard := card_le_card (union_subset (filter_subset (fun I => σ (A I) ≠ I) (Icc 1 n))
    (filter_subset (fun I => decide (within n dom (A I) = {I}) = true) (Icc 1 n)))
  have hunion := card_union_of_disjoint hdisj
  unfold inCircuit at hunion ⊢
  rw [hunion, Nat.card_Icc, Nat.add_sub_cancel] at hcard
  exact Nat.le_sub_of_add_le hcard

omit [DecidableEq ι] in
theorem maps_of_oneCycle (hcyc : OneCycle (InSucc n A σ) (inCircuit n A σ)) : ∀ I ∈ Icc 1 n, σ (A I) ∈ Icc 1 n := by
  intro I hI
  by_cases hfix : σ (A I) = I
  · rw [hfix]
    exact hI
  · have hIn : I ∈ inCircuit n A σ := mem_inCircuit.2 ⟨hI, hfix⟩
    exact (mem_inCircuit.1 (hcyc.1.mem I _ ⟨hIn, rfl⟩).2).1

omit [DecidableEq ι] in
theorem count_into (hcyc : OneCycle (InSucc n A σ) (inCircuit n A σ)) {J : ℕ} (hJ : J ∈ Icc 1 n) :
    count (Icc 1 n) (fun I => decide (σ (A I) = J)) = 1 := by
  simp only [count_eq_one, decide_eq_true_eq]
  by_cases hfix : σ (A J) = J
  · refine ⟨J, ⟨hJ, hfix⟩, ?_⟩
    rintro I ⟨hI, hIJ⟩
    by_contra hne
    have hIn : I ∈ inCircuit n A σ := mem_inCircuit.2 ⟨hI, by rw [hIJ]; exact fun h => hne h.symm⟩
    exact (mem_inCircuit.1 (hcyc.1.mem I J ⟨hIn, hIJ⟩).2).2 hfix
  · obtain ⟨I, hI, huniq⟩ := hcyc.1.into J (mem_inCircuit.2 ⟨hJ, hfix⟩)
    refine ⟨I, ⟨(mem_inCircuit.1 hI.1).1, hI.2⟩, ?_⟩
    rintro K ⟨hK, hKJ⟩
    refine huniq K ⟨mem_inCircuit.2 ⟨hK, ?_⟩, hKJ⟩
    rw [hKJ]
    rintro rfl
    exact hfix hKJ

def subcircuitValues (n : ℕ) (A : ℕ → ι) (σ : ι → ℕ) (start hasStarted : ℕ → Bool) (p : ℕ → ℕ) : SubcircuitVars where
  h I J := decide (σ (A I) = J)
  k := (inCircuit n A σ).card
  kGt1 := decide (1 < (inCircuit n A σ).card)
  kGt2 := decide (2 < (inCircuit n A σ).card)
  start := start
  hasStarted := hasStarted
  p := p

omit [DecidableEq ι] in
theorem subcircuitDegree_values (hσ : ∀ I ∈ Icc 1 n, σ (A I) ∈ within n dom (A I))
    (hcyc : OneCycle (InSucc n A σ) (inCircuit n A σ)) {start hasStarted : ℕ → Bool} {p : ℕ → ℕ}
    (hp : CyclePlaces n A σ (subcircuitMinK n A dom) start hasStarted p) :
    SubcircuitDegree n A dom seen σ (subcircuitValues n A σ start hasStarted p) := by
  have hnot : (fun I => !decide (σ (A I) = I)) = fun I => decide (σ (A I) ≠ I) := by
    funext I
    exact decide_not.symm
  have hmin := subcircuitMinK_le hσ
  refine ⟨hσ, ?_, mem_Icc.2 ⟨hmin, le_subcircuitMaxK hσ⟩, fun I _ J _ _ _ => decide_eq_true_iff, fun J hJ =>
    count_into hcyc hJ, ?_, ?_, ?_⟩
  · intro I hI J _ hout
    apply decide_eq_false
    rintro rfl
    exact hout (hσ I hI)
  · unfold subcircuitValues
    simp only [hnot]
    exact count_inCircuit.symm
  · unfold subcircuitValues
    split_ifs with h2
    · exact ⟨decide_eq_true (by omega), decide_eq_true (by omega)⟩
    · refine ⟨decide_eq_true_iff, decide_eq_true_iff, ?_⟩
      simp only [decide_eq_true_eq]
      omega
  · unfold subcircuitValues
    simp only [hnot]
    exact hp.pattern

theorem exists_subcircuitAux (hn : 2 ≤ n) (hn14 : n < 2 ^ 14) (hsound : seen.Sound n A dom)
    (hno : ¬ subcircuitNoLoop n A dom) (hσ : ∀ I ∈ Icc 1 n, σ (A I) ∈ dom (A I))
    (hcyc : OneCycle (InSucc n A σ) (inCircuit n A σ)) : ∃ x, SubcircuitAux n A dom seen σ x := by
  have hwithin : ∀ I ∈ Icc 1 n, σ (A I) ∈ within n dom (A I) := fun I hI =>
    mem_inter.2 ⟨hσ I hI, maps_of_oneCycle hcyc I hI⟩
  obtain ⟨start, hasStarted, p, hp⟩ := exists_cyclePlaces hn hn14 hcyc (subcircuitMinK_le hwithin)
  have hdegree := @subcircuitDegree_values _ _ _ dom seen σ hwithin hcyc _ _ _ hp
  have hout := hsound.out hno hdegree
  refine ⟨subcircuitValues n A σ start hasStarted p, hdegree, fun I _ => hp.lt I, ?_, fun I _ => hp.first I, ?_⟩
  · intro I hI
    unfold subcircuitValues at hout ⊢
    by_cases hseen : seen.out I = true
    · rw [if_pos hseen]
      exact (hp.out I hI).1 (of_decide_eq_true (hout I hI hseen))
    · rw [if_neg hseen]
      exact decide_eq_true_iff.trans (hp.out I hI)
  · intro I hI J hJ hne _ _
    unfold subcircuitValues
    simp only [decide_eq_true_eq, decide_eq_false_iff_not]
    have hedge : σ (A I) = J → InSucc n A σ I J := fun h =>
      ⟨mem_inCircuit.2 ⟨hI, by rw [h]; exact hne.symm⟩, h⟩
    refine ⟨?_, ?_, ?_, ?_⟩
    · intro h
      exact (mem_inCircuit.1 (hcyc.1.mem I J (hedge h)).2).2
    · intro h
      exact (mem_inCircuit.1 (hedge h).1).2
    · intro _
      by_contra hcon
      push Not at hcon
      obtain ⟨h2, hIJ, hJI⟩ := hcon
      have hback : InSucc n A σ J I := ⟨(hcyc.1.mem I J (hedge hIJ)).2, hJI⟩
      have := hcyc.card_le_two (hedge hIJ) hback
      omega
    · rw [entailLfsrSucc_iff (two_le_subcircuitNB hn) (subcircuitNB_le hn hn14) (hp.lt J), decide_eq_true_eq]
      intro hstart h
      exact hp.step I J (hedge h) (by rwa [Bool.not_eq_true'] at hstart)

/-- For 2 to 2^14 - 1 nodes, `subcircuit` has a solution just when the nodes that are not their own successors form one
cycle, or there are none. -/
theorem subcircuit_iff (hn : 2 ≤ n) (hn14 : n < 2 ^ 14) (hsound : seen.Sound n A dom)
    (hσ : ∀ I ∈ Icc 1 n, σ (A I) ∈ dom (A I)) :
    (∃ x, subcircuitAux n A dom seen σ x) ↔ inCircuit n A σ = ∅ ∨ OneCycle (InSucc n A σ) (inCircuit n A σ) := by
  unfold subcircuitAux
  by_cases hno : subcircuitNoLoop n A dom
  · have hin := inCircuit_of_noLoop hno hσ
    have hnone : inCircuit n A σ ≠ ∅ := by
      rw [hin]
      exact (nonempty_Icc.2 (by omega)).ne_empty
    unfold SubcircuitSeen.Sound at hsound
    rw [if_pos hno] at hsound
    simp only [if_pos hno]
    unfold circuitAux
    simp only [if_neg (by omega : ¬ n = 1)]
    rw [inSucc_of_noLoop hno hσ, hin, or_iff_right (by rwa [hin] at hnone)]
    constructor
    · intro hp
      obtain ⟨x, hx⟩ := hp
      exact circuitAux_sound hn hx hsound
    · intro hcyc
      obtain ⟨h, p, hx⟩ := @exists_circuitAux _ _ _ _ _ seen.toCircuitSeen _ hn hσ hcyc
      exact ⟨⟨h, 0, false, false, fun _ => false, fun _ => false, p⟩, hx⟩
  · simp only [if_neg hno, if_neg (by omega : ¬ n = 1)]
    constructor
    · intro hp
      obtain ⟨x, hx⟩ := hp
      rw [or_iff_not_imp_left]
      intro hne
      exact hx.sound hn hn14 hsound hno (nonempty_iff_ne_empty.2 hne)
    · intro hor
      apply exists_subcircuitAux hn hn14 hsound hno hσ
      rcases hor with hempty | hcyc
      · -- where no node is in, there is nothing to reach
        have hnone : ∀ I, I ∉ inCircuit n A σ := fun I => by
          rw [hempty]
          exact notMem_empty I
        exact ⟨⟨fun I _ hIJ => absurd hIJ.1 (hnone I), fun I hI => absurd hI (hnone I), fun J hJ =>
          absurd hJ (hnone J)⟩, fun I hI => absurd hI (hnone I)⟩
      · exact hcyc

end

def swapTwo (I : ℕ) : ℕ := if I = 1 then 2 else if I = 2 then 1 else I

theorem subcircuit_iff_three :
    ∃ x, subcircuitAux 3 id (fun _ => {1, 2, 3}) ⟨nothingKnown, fun _ => false⟩ swapTwo x := by
  have hsound : SubcircuitSeen.Sound ⟨nothingKnown, fun _ => false⟩ 3 id (fun _ => {1, 2, 3}) := by
    unfold SubcircuitSeen.Sound
    rw [if_neg (by decide)]
    exact fun _ _ => ⟨fun _ _ _ h => absurd h Bool.false_ne_true, fun _ _ _ _ _ =>
      ⟨fun h => absurd h Bool.false_ne_true, fun h => absurd h Bool.false_ne_true⟩⟩
  refine (subcircuit_iff (by decide) (by decide) hsound (by decide)).2 (.inr ⟨linked_inSucc (by decide) ?_, ?_⟩)
  · intro I hI J hJ heq
    have hcases : ∀ I ∈ Icc 1 3, ∀ J ∈ Icc 1 3, swapTwo I = swapTwo J → I = J := by decide
    exact hcases I (mem_coe.1 hI) J (mem_coe.1 hJ) heq
  · intro I hI J hJ
    by_cases hIJ : I = J
    · rw [hIJ]
    · refine Relation.ReflTransGen.single ⟨hI, ?_⟩
      have hcases : ∀ I ∈ inCircuit 3 id swapTwo, ∀ J ∈ inCircuit 3 id swapTwo, I ≠ J → swapTwo I = J := by decide
      exact hcases I hI J hJ hIJ

end Picat.Graph
