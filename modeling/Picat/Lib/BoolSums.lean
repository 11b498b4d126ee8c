import Mathlib.Algebra.BigOperators.Group.List.Basic
import Mathlib.Algebra.Order.Ring.Int
import Mathlib.Data.List.Nodup

/-!
# Sums of Booleans

* `min?_eq_some_iff`, `max?_eq_some_iff`, `sum_eq_count` : the least, the greatest and the sum of integers 0 and 1.
-/

namespace BoolSums

open List

variable {α : Type*} {l : List α} {p : α → Bool}

theorem countP_eq_one_iff (hnodup : l.Nodup) : l.countP p = 1 ↔ ∃! x, x ∈ l ∧ p x = true := by
  rw [countP_eq_length_filter, length_eq_one_iff]
  constructor
  · intro h
    obtain ⟨x, hx⟩ := h
    have hmem : ∀ y, y ∈ l ∧ p y = true ↔ y = x := by
      intro y
      rw [← mem_filter, hx, mem_singleton]
    exact ⟨x, (hmem x).2 rfl, fun y hy => (hmem y).1 hy⟩
  · intro h
    obtain ⟨x, hx, huniq⟩ := h
    refine ⟨x, ?_⟩
    apply perm_singleton.1
    apply (perm_ext_iff_of_nodup (hnodup.filter _) (nodup_singleton x)).2
    intro y
    rw [mem_filter, mem_singleton]
    constructor
    · exact huniq y
    · rintro rfl
      exact hx

theorem one_le_countP_iff : 1 ≤ l.countP p ↔ ∃ x ∈ l, p x = true := by
  rw [Nat.one_le_iff_ne_zero, Ne, countP_eq_zero]
  push Not
  rfl

/-! ## Integers 0 and 1 -/

def Bits (l : List ℤ) : Prop := ∀ a ∈ l, a = 0 ∨ a = 1

section
variable {l : List ℤ} {b : ℤ}

theorem min?_eq_some_iff (hne : l ≠ []) (hl : Bits l) (hb : b = 0 ∨ b = 1) :
    l.min? = some b ↔ (b = 1 ↔ ∀ a ∈ l, a = 1) := by
  rw [List.min?_eq_some_iff]
  constructor
  · intro ⟨hmem, hle⟩
    constructor
    · intro h1 a ha
      have := hle a ha
      have := hl a ha
      omega
    · intro hall
      exact hall b hmem
  · intro hiff
    rcases hb with rfl | rfl
    · have hnot : ¬ ∀ a ∈ l, a = 1 := fun hall => absurd (hiff.2 hall) (by decide)
      push Not at hnot
      obtain ⟨a, ha, ha1⟩ := hnot
      refine ⟨?_, fun c hc => ?_⟩
      · rw [← (hl a ha).resolve_right ha1]
        exact ha
      · have := hl c hc
        omega
    · obtain ⟨a, ha⟩ := exists_mem_of_ne_nil l hne
      have hall := hiff.1 rfl
      refine ⟨?_, fun c hc => le_of_eq (hall c hc).symm⟩
      rw [← hall a ha]
      exact ha

theorem max?_eq_some_iff (hne : l ≠ []) (hl : Bits l) (hb : b = 0 ∨ b = 1) :
    l.max? = some b ↔ (b = 1 ↔ ∃ a ∈ l, a = 1) := by
  rw [List.max?_eq_some_iff]
  constructor
  · intro ⟨hmem, hle⟩
    constructor
    · intro h1
      exact ⟨b, hmem, h1⟩
    · intro ⟨a, ha, ha1⟩
      have := hle a ha
      omega
  · intro hiff
    rcases hb with rfl | rfl
    · have hnot : ¬ ∃ a ∈ l, a = 1 := fun hex => absurd (hiff.2 hex) (by decide)
      push Not at hnot
      have hall : ∀ a ∈ l, a = 0 := fun a ha => (hl a ha).resolve_right (hnot a ha)
      obtain ⟨a, ha⟩ := exists_mem_of_ne_nil l hne
      refine ⟨?_, fun c hc => le_of_eq (hall c hc)⟩
      rw [← hall a ha]
      exact ha
    · obtain ⟨a, ha, rfl⟩ := hiff.1 rfl
      refine ⟨ha, fun c hc => ?_⟩
      have := hl c hc
      omega

theorem sum_eq_count (hl : Bits l) : l.sum = l.count 1 := by
  induction l with
  | nil => rfl
  | cons a l ih =>
    rw [sum_cons, count_cons, ih fun c hc => hl c (mem_cons_of_mem a hc)]
    rcases hl a mem_cons_self with rfl | rfl
    · rw [if_neg (by decide)]
      omega
    · rw [if_pos (by decide)]
      omega

end

end BoolSums
