import Mathlib.Data.Nat.Count
import Mathlib.Dynamics.PeriodicPts.Defs
import Mathlib.Order.Interval.Finset.Nat

/-!
# Maps of `0..m` that run through `1..m`

* `RunsThrough.iterate_ne` : no state but `0` comes back before `m` steps.
-/

namespace Periods
open Function Finset

/-- From `x`, the first return to `x0` comes after `k - 1` steps. A run that got to `0` does not come back. -/
def firstReturn (f : ℕ → ℕ) (x0 : ℕ) : (k x : ℕ) → Bool
  | 0, _ => false
  | _ + 1, 0 => false
  | k + 1, x + 1 => bif Nat.beq (x + 1) x0 then k == 0 else firstReturn f x0 k (f (x + 1))

variable {f : ℕ → ℕ} {x0 k m x : ℕ}

theorem iterate_of_firstReturn (h : firstReturn f x0 k x = true) :
    ∃ j, k = j + 1 ∧ f^[j] x = x0 ∧ ∀ i < j, f^[i] x ≠ x0 := by
  induction k, x using firstReturn.induct f x0 with
  | case1 x =>
    unfold firstReturn at h
    exact absurd h Bool.false_ne_true
  | case2 k =>
    unfold firstReturn at h
    exact absurd h Bool.false_ne_true
  | case3 k x hbeq =>
    unfold firstReturn at h
    rw [hbeq, cond_true, beq_iff_eq] at h
    subst h
    exact ⟨0, rfl, Nat.eq_of_beq_eq_true hbeq, fun i hi => absurd hi (Nat.not_lt_zero i)⟩
  | case4 k x hbeq ih =>
    unfold firstReturn at h
    rw [hbeq, cond_false] at h
    obtain ⟨j, rfl, hj, hno⟩ := ih h
    refine ⟨j + 1, rfl, hj, ?_⟩
    intro i hi
    cases i with
    | zero => exact Nat.ne_of_beq_eq_false hbeq
    | succ i => exact hno i (by omega)

theorem minimalPeriod_of_firstReturn (h : firstReturn f x0 m (f x0) = true) : minimalPeriod f x0 = m := by
  obtain ⟨j, rfl, hj, hno⟩ := iterate_of_firstReturn h
  have hper : IsPeriodicPt f (j + 1) x0 := hj
  apply le_antisymm (hper.minimalPeriod_le (Nat.succ_pos j))
  by_contra hlt
  have hpos := hper.minimalPeriod_pos (Nat.succ_pos j)
  apply hno (minimalPeriod f x0 - 1) (by omega)
  rw [← iterate_succ_apply, Nat.succ_eq_add_one, Nat.sub_add_cancel hpos]
  exact iterate_minimalPeriod

/-- `f` keeps `0..m` and `0`, and comes back to `1` after `m` steps and not before. -/
structure RunsThrough (f : ℕ → ℕ) (m : ℕ) : Prop where
  le : ∀ x, f x ≤ m
  zero : f 0 = 0
  pos : 0 < m
  period : minimalPeriod f 1 = m

namespace RunsThrough
variable (h : RunsThrough f m)
include h

theorem isPeriodicPt : IsPeriodicPt f m 1 := by
  rw [← h.period]
  exact isPeriodicPt_minimalPeriod f 1

theorem iterate_le (k : ℕ) : f^[k] 1 ≤ m := by
  cases k with
  | zero => exact h.pos
  | succ k =>
    rw [iterate_succ_apply']
    exact h.le _

theorem iterate_pos (k : ℕ) : 0 < f^[k] 1 := by
  by_contra h0
  have hzero : f^[k] 1 = 0 := by omega
  have hback : f^[m * (k + 1) - k] (f^[k] 1) = 1 := by
    rw [← iterate_add_apply, Nat.sub_add_cancel]
    · exact h.isPeriodicPt.mul_const (k + 1)
    · have := Nat.le_mul_of_pos_left (k + 1) h.pos
      omega
  rw [hzero, iterate_fixed h.zero] at hback
  exact absurd hback Nat.zero_ne_one

theorem exists_iterate (hx0 : 0 < x) (hx : x ≤ m) : ∃ k, f^[k] 1 = x := by
  have hmaps : Set.MapsTo (fun k => f^[k] 1) (range m : Finset ℕ) (Icc 1 m : Finset ℕ) := by
    intro k _
    exact mem_coe.2 (mem_Icc.2 ⟨h.iterate_pos k, h.iterate_le k⟩)
  have hinj : Set.InjOn (fun k => f^[k] 1) (range m : Finset ℕ) := by
    have := iterate_injOn_Iio_minimalPeriod (f := f) (x := 1)
    rwa [h.period, ← coe_range] at this
  have hcard : (Icc 1 m).card ≤ (range m).card := by rw [Nat.card_Icc, card_range, Nat.add_sub_cancel]
  obtain ⟨k, -, hk⟩ := surjOn_of_injOn_of_card_le _ hmaps hinj hcard (mem_coe.2 (mem_Icc.2 ⟨hx0, hx⟩))
  exact ⟨k, hk⟩

theorem iterate_ne (hx0 : 0 < x) (hx : x ≤ m) (hk : 0 < k) (hkm : k < m) : f^[k] x ≠ x := by
  intro hback
  obtain ⟨j, rfl⟩ := h.exists_iterate hx0 hx
  have hper : IsPeriodicPt f k (f^[j] 1) := hback
  have hle := hper.minimalPeriod_le hk
  rw [minimalPeriod_apply_iterate (mk_mem_periodicPts h.pos h.isPeriodicPt), h.period] at hle
  omega

end RunsThrough

end Periods
