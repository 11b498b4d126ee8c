import Mathlib.Order.Interval.Finset.Nat
import Mathlib.Tactic.Ring
import Picat.Global.Variables

/-!
# `sliding_sum`: sums of windows

* `slidingSum_meets_iff` : when these are all windows.
-/

namespace Picat.Global
open Finset List

section
variable (Low Up : ℤ) (Seq : ℕ) (Vs : List ℤ)

/-- `N` is the length of the list. -/
structure SlidingSumPosted (S : ℕ → ℤ) : Prop where
  first : S 1 = elem Vs 1
  sums : ∀ I ∈ Icc 2 Vs.length, S I = S (I - 1) + elem Vs I
  low : Low ≤ S Seq
  up : S Seq ≤ Up
  windows : ∀ I ∈ Icc (Seq + 1) (Vs.length - Seq + 1), ∃ T, T = S I - S (I - Seq) ∧ Low ≤ T ∧ T ≤ Up

def slidingSum : Prop := ∃ S, SlidingSumPosted Low Up Seq Vs S

/-- The sum of the window after the first `k` elements. -/
def windowSum (k : ℕ) : ℤ := ((Vs.drop k).take Seq).sum

def WindowFits (k : ℕ) : Prop := Low ≤ windowSum Seq Vs k ∧ windowSum Seq Vs k ≤ Up

end

variable {Low Up : ℤ} {Seq : ℕ} {Vs : List ℤ}

/-! ## Prefix sums -/

theorem sum_take_succ {I : ℕ} (h : I < Vs.length) : (Vs.take (I + 1)).sum = (Vs.take I).sum + elem Vs (I + 1) := by
  unfold elem
  rw [take_add_one, sum_append, Nat.add_sub_cancel, List.getElem?_eq_getElem h, getD_eq_getElem _ _ h,
    Option.toList_some, List.sum_singleton]

theorem windowSum_eq (k : ℕ) : windowSum Seq Vs k = (Vs.take (k + Seq)).sum - (Vs.take k).sum := by
  unfold windowSum
  rw [take_add, sum_append]
  exact (add_sub_cancel_left _ _).symm

theorem windowSum_zero : windowSum Seq Vs 0 = (Vs.take Seq).sum := rfl

theorem SlidingSumPosted.prefixSum {S : ℕ → ℤ} (h : SlidingSumPosted Low Up Seq Vs S) {I : ℕ} (h1 : 1 ≤ I)
    (hI : I ≤ Vs.length) : S I = (Vs.take I).sum := by
  induction I, h1 using Nat.le_induction with
  | base =>
    rw [h.first, sum_take_succ hI]
    exact (zero_add _).symm
  | succ I h1 ih =>
    have hsum := h.sums (I + 1) (mem_Icc.2 ⟨Nat.succ_le_succ h1, hI⟩)
    rw [Nat.add_sub_cancel, ih (Nat.le_of_succ_le hI)] at hsum
    rw [hsum, sum_take_succ hI]

/-- The windows that the loop reaches are the first one and those that end `Seq - 1` elements before the last. -/
theorem slidingSum_iff (h1 : 1 ≤ Seq) (hN : Seq ≤ Vs.length) : slidingSum Low Up Seq Vs ↔
    ∀ k, k = 0 ∨ k + 2 * Seq ≤ Vs.length + 1 → WindowFits Low Up Seq Vs k := by
  constructor
  · intro hp k hk
    obtain ⟨S, h⟩ := hp
    by_cases hk0 : k = 0
    · rw [hk0]
      unfold WindowFits
      rw [windowSum_zero, ← h.prefixSum h1 hN]
      exact ⟨h.low, h.up⟩
    · have hend := hk.resolve_left hk0
      obtain ⟨T, hT, hlow, hup⟩ := h.windows (k + Seq) (mem_Icc.2 ⟨by omega, by omega⟩)
      rw [Nat.add_sub_cancel, h.prefixSum (by omega) (by omega), h.prefixSum (by omega) (by omega), ← windowSum_eq] at hT
      rw [hT] at hlow hup
      exact ⟨hlow, hup⟩
  · intro hfits
    obtain ⟨hlow, hup⟩ := hfits 0 (.inl rfl)
    rw [windowSum_zero] at hlow hup
    refine ⟨fun I => (Vs.take I).sum, ⟨?_, ?_, hlow, hup, ?_⟩⟩
    · rw [sum_take_succ (h1.trans hN)]
      exact zero_add _
    · intro I hI
      obtain ⟨h2, hI⟩ := mem_Icc.1 hI
      obtain ⟨I, rfl⟩ := Nat.exists_eq_add_of_le' (Nat.le_of_succ_le h2)
      exact sum_take_succ hI
    · intro I hI
      obtain ⟨hSeq, hI⟩ := mem_Icc.1 hI
      obtain ⟨hlow, hup⟩ := hfits (I - Seq) (.inr (by omega))
      refine ⟨windowSum Seq Vs (I - Seq), ?_, hlow, hup⟩
      rw [windowSum_eq, Nat.sub_add_cancel (by omega)]

/-! ## The windows that are missed -/

section
variable (S : ℕ → ℤ) (N : ℕ)

/-- The list with the prefix sums `S`. -/
def steps : List ℤ := (List.range N).map fun I => S (I + 1) - S I

theorem length_steps : (steps S N).length = N := by
  unfold steps
  rw [length_map, length_range]

theorem sum_take_steps {I : ℕ} (hI : I ≤ N) : ((steps S N).take I).sum = S I - S 0 := by
  have hrange : (steps S N).take I = (List.range I).map fun I => S (I + 1) - S I := by
    unfold steps
    rw [← List.map_take, List.take_range, Nat.min_eq_left hI]
  rw [hrange]
  clear hrange hI
  induction I with
  | zero => exact (sub_self _).symm
  | succ I ih =>
    rw [List.range_succ, List.map_append, List.sum_append, ih, List.map_singleton, List.sum_singleton]
    exact sub_add_sub_cancel' _ _ _

theorem windowSum_steps {k : ℕ} (hk : k + Seq ≤ N) : windowSum Seq (steps S N) k = S (k + Seq) - S k := by
  rw [windowSum_eq, sum_take_steps S N hk, sum_take_steps S N (by omega)]
  exact sub_sub_sub_cancel_right _ _ _

end

theorem exists_last_misfit (Low Up : ℤ) {N : ℕ} (h2 : 2 ≤ Seq) (hN : Seq < N) : ∃ Vs : List ℤ, Vs.length = N ∧
    (∀ k, k + Seq < N → windowSum Seq Vs k = Low) ∧ windowSum Seq Vs (N - Seq) = Up + 1 := by
  have hdiv : ∀ k, (k + Seq) / Seq = k / Seq + 1 := fun k => Nat.add_div_right k (by omega)
  refine ⟨steps (fun I => if I = N then Low * ((N - Seq) / Seq : ℕ) + (Up + 1) else Low * (I / Seq : ℕ)) N,
    length_steps _ _, ?_, ?_⟩
  · intro k hk
    rw [windowSum_steps _ _ (by omega), if_neg (by omega), if_neg (by omega), hdiv]
    push_cast
    ring
  · rw [windowSum_steps _ _ (by omega), if_pos (by omega), if_neg (by omega)]
    exact add_sub_cancel_left _ _

/-- For integers without bounds of their own, all windows are constrained when the length is 1 or that of the list, or
when no sum is between the bounds; values for which the windows that are reached fit are accepted. -/
theorem slidingSum_meets_iff {N : ℕ} (h1 : 1 ≤ Seq) (hN : Seq ≤ N) : ((∀ Vs : List ℤ, Vs.length = N →
      (slidingSum Low Up Seq Vs ↔ ∀ k, k + Seq ≤ N → WindowFits Low Up Seq Vs k)) ↔ Seq = 1 ∨ Seq = N ∨ Up < Low) ∧
    ∀ Vs : List ℤ, Vs.length = N → ((slidingSum Low Up Seq Vs ↔ ∀ k, k + Seq ≤ N → WindowFits Low Up Seq Vs k) ↔
        ((∀ k, k = 0 ∨ k + 2 * Seq ≤ N + 1 → WindowFits Low Up Seq Vs k) →
          ∀ k, N + 1 < k + 2 * Seq → k + Seq ≤ N → WindowFits Low Up Seq Vs k)) := by
  have heach : ∀ Vs : List ℤ, Vs.length = N →
      ((slidingSum Low Up Seq Vs ↔ ∀ k, k + Seq ≤ N → WindowFits Low Up Seq Vs k) ↔
        ((∀ k, k = 0 ∨ k + 2 * Seq ≤ N + 1 → WindowFits Low Up Seq Vs k) →
          ∀ k, N + 1 < k + 2 * Seq → k + Seq ≤ N → WindowFits Low Up Seq Vs k)) := by
    intro Vs hlen
    rw [slidingSum_iff h1 (hN.trans_eq hlen.symm), hlen]
    constructor
    · intro h hreached k _ hk
      exact h.1 hreached k hk
    · intro h
      constructor
      · intro hreached k hk
        by_cases hend : k + 2 * Seq ≤ N + 1
        · exact hreached k (.inr hend)
        · exact h hreached k (by omega) hk
      · intro hall k hk
        exact hall k (by omega)
  refine ⟨?_, heach⟩
  constructor
  · intro hall
    by_contra hno
    push Not at hno
    obtain ⟨hne1, hneN, hle⟩ := hno
    obtain ⟨Vs, hlen, hlow, hlast⟩ := exists_last_misfit Low Up (show 2 ≤ Seq by omega) (show Seq < N by omega)
    have hfits := (heach Vs hlen).1 (hall Vs hlen) ?_ (N - Seq) (by omega) (by omega)
    · unfold WindowFits at hfits
      rw [hlast] at hfits
      omega
    · intro k hk
      unfold WindowFits
      rw [hlow k (by omega)]
      exact ⟨le_refl _, hle⟩
  · intro hcase Vs hlen
    apply (heach Vs hlen).2
    intro hreached k hmissed hk
    rcases hcase with rfl | rfl | hlt
    · exact absurd hmissed (by omega)
    · exact hreached k (.inl (by omega))
    · obtain ⟨hlow, hup⟩ := hreached 0 (.inl rfl)
      omega

theorem slidingSum_meets_iff_three : ¬ ∀ Vs : List ℤ, Vs.length = 3 →
    (slidingSum 0 1 2 Vs ↔ ∀ k, k + 2 ≤ 3 → WindowFits 0 1 2 Vs k) := by
  intro h
  have := (slidingSum_meets_iff (by decide) (by decide)).1.1 h
  omega

/-- The second of the two windows has the sum 5. -/
theorem slidingSum_last_window : ¬ (slidingSum 0 1 2 [0, 0, 5] ↔ ∀ k, k + 2 ≤ 3 → WindowFits 0 1 2 [0, 0, 5] k) := by
  intro h
  have hposted : slidingSum 0 1 2 [0, 0, 5] := by
    apply (slidingSum_iff (by decide) (by decide)).2
    intro k hk
    have hk0 : k = 0 := by
      rw [length_cons, length_cons, length_cons, length_nil] at hk
      omega
    rw [hk0]
    unfold WindowFits windowSum
    decide
  have hlast := (h.1 hposted 1 (by decide)).2
  revert hlast
  unfold windowSum
  decide

end Picat.Global
