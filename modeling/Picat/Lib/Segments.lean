import Mathlib.Algebra.Order.Ring.Nat
import Mathlib.Data.List.Perm.Basic

/-!
# Sorting by segments

A list that is being sorted, with a stack of segments that are still to be sorted. A segment `(b, e)` has the positions
from `b` on, below `e`.

* `Halves n segs` : in a stack that keeps the smaller part on top, sizes go down by half from level to level.
-/

namespace Segments

open List

variable {α : Type*}

/-! ## Other orders -/

/-- `a'` is `a` with the elements from `b` on, below `e`, in another order. -/
structure Rearranged (b e : ℕ) (a a' : List α) : Prop where
  perm : a'.Perm a
  outside : ∀ i, ¬ (b ≤ i ∧ i < e) → a'[i]? = a[i]?

namespace Rearranged

variable {b e : ℕ} {a a' a'' : List α}

theorem trans (h : Rearranged b e a a') (h' : Rearranged b e a' a'') : Rearranged b e a a'' :=
  ⟨h'.perm.trans h.perm, fun i hi => (h'.outside i hi).trans (h.outside i hi)⟩

theorem length_eq (h : Rearranged b e a a') : a'.length = a.length := h.perm.length_eq

theorem swap {i j : ℕ} (hi : b ≤ i ∧ i < e) (hj : b ≤ j ∧ j < e) (hia : i < a.length) (hja : j < a.length) :
    Rearranged b e a ((a.set i a[j]).set j a[i]) := by
  refine ⟨set_set_perm hia hja, fun k hk => ?_⟩
  have hki : i ≠ k := by
    rintro rfl
    exact hk hi
  have hkj : j ≠ k := by
    rintro rfl
    exact hk hj
  rw [List.getElem?_set_ne hkj, List.getElem?_set_ne hki]

theorem move {p : α} {h k : ℕ} {arr : List α} (hr : Rearranged b e a (arr.set h p)) (hh : b ≤ h ∧ h < e)
    (hk : b ≤ k ∧ k < e) (hha : h < arr.length) (hka : k < arr.length) :
    Rearranged b e a ((arr.set h arr[k]).set k p) := by
  by_cases heq : h = k
  · subst heq
    rw [set_getElem_self]
    exact hr
  · have hswap := swap (a := arr.set h p) hh hk (by rwa [length_set]) (by rwa [length_set])
    rw [getElem_set_self, getElem_set_ne heq, set_set] at hswap
    exact hr.trans hswap

theorem eq_around (b e : ℕ) (a : List α) (hbe : b ≤ e) : a = a.take b ++ ((a.drop b).take (e - b) ++ a.drop e) := by
  have hdrop : a.drop e = (a.drop b).drop (e - b) := by
    rw [drop_drop]
    congr 1
    omega
  rw [hdrop, take_append_drop, take_append_drop]

theorem mem_inside {x : α} : x ∈ (a.drop b).take (e - b) ↔ ∃ i, (b ≤ i ∧ i < e) ∧ a[i]? = some x := by
  rw [mem_iff_getElem?]
  constructor
  · rintro ⟨k, hk⟩
    rw [List.getElem?_take] at hk
    split_ifs at hk with hlt
    rw [List.getElem?_drop] at hk
    exact ⟨b + k, ⟨Nat.le_add_right _ _, by omega⟩, hk⟩
  · rintro ⟨i, ⟨hb, he⟩, hx⟩
    refine ⟨i - b, ?_⟩
    rw [List.getElem?_take, if_pos (by omega), List.getElem?_drop, Nat.add_sub_cancel' hb]
    exact hx

theorem exists_inside (h : Rearranged b e a a') {i : ℕ} (hi : b ≤ i ∧ i < e) {x : α} (hx : a'[i]? = some x) :
    ∃ j, (b ≤ j ∧ j < e) ∧ a[j]? = some x := by
  have hbe : b ≤ e := by omega
  have htake : a'.take b = a.take b := by
    apply ext_getElem?
    intro k
    rw [List.getElem?_take, List.getElem?_take]
    split_ifs with hk
    · exact h.outside k (by omega)
    · rfl
  have hdrop : a'.drop e = a.drop e := by
    apply ext_getElem?
    intro k
    rw [List.getElem?_drop, List.getElem?_drop]
    exact h.outside (e + k) (by omega)
  have hperm : ((a'.drop b).take (e - b)).Perm ((a.drop b).take (e - b)) := by
    have hall := h.perm
    rw [eq_around b e a hbe, eq_around b e a' hbe, htake, hdrop, perm_append_left_iff, perm_append_right_iff] at hall
    exact hall
  rw [← mem_inside, ← hperm.mem_iff, mem_inside]
  exact ⟨i, hi, hx⟩

end Rearranged

/-! ## Segments that are to be sorted -/

def Apart (s t : ℕ × ℕ) : Prop := s.2 ≤ t.1 ∨ t.2 ≤ s.1

theorem Apart.mono {s t u : ℕ × ℕ} (h : Apart s u) (hb : s.1 ≤ t.1) (he : t.2 ≤ s.2) : Apart t u :=
  h.imp (Nat.le_trans he) fun h => Nat.le_trans h hb

def SortedUpTo (le : α → α → Prop) (segs : List (ℕ × ℕ)) (a : List α) : Prop :=
  ∀ i j x y, i < j → a[i]? = some x → a[j]? = some y → le x y ∨ ∃ s ∈ segs, s.1 ≤ i ∧ j < s.2

namespace SortedUpTo

variable {le : α → α → Prop} {segs : List (ℕ × ℕ)} {a a' : List α} {b e : ℕ}

theorem whole (le : α → α → Prop) (a : List α) : SortedUpTo le [(0, a.length)] a := by
  intro i j x y _ _ hy
  exact .inr ⟨_, mem_singleton_self _, Nat.zero_le _, (List.getElem?_eq_some_iff.1 hy).1⟩

theorem pairwise (h : SortedUpTo le [] a) : a.Pairwise le := by
  rw [pairwise_iff_getElem]
  intro i j hi hj hij
  rcases h i j _ _ hij (List.getElem?_eq_getElem hi) (List.getElem?_eq_getElem hj) with hle | ⟨s, hs, -⟩
  · exact hle
  · cases hs

theorem mono {segs' : List (ℕ × ℕ)} (h : SortedUpTo le segs a) (hsub : segs ⊆ segs') : SortedUpTo le segs' a :=
  fun i j x y hij hx hy => (h i j x y hij hx hy).imp_right fun ⟨s, hs, hin⟩ => ⟨s, hsub hs, hin⟩

section
variable (h : SortedUpTo le ((b, e) :: segs) a)
include h

theorem pop (hbe : e ≤ b + 1) : SortedUpTo le segs a := by
  intro i j x y hij hx hy
  rcases h i j x y hij hx hy with hle | ⟨s, hs, hsi, hsj⟩
  · exact .inl hle
  · rcases mem_cons.1 hs with rfl | hs
    · exact absurd hij (by simp only at hsi hsj; omega)
    · exact .inr ⟨s, hs, hsi, hsj⟩

theorem le_outside (hapart : ∀ s ∈ segs, Apart (b, e) s) {i j : ℕ} {x y : α}
    (hij : i < j) (hx : a[i]? = some x) (hy : a[j]? = some y)
    (hone : (b ≤ i ∧ i < e) ∧ ¬ (b ≤ j ∧ j < e) ∨ ¬ (b ≤ i ∧ i < e) ∧ (b ≤ j ∧ j < e)) : le x y := by
  rcases h i j x y hij hx hy with hle | ⟨s, hs, hsi, hsj⟩
  · exact hle
  · exfalso
    rcases mem_cons.1 hs with rfl | hs
    · simp only at hsi hsj
      omega
    · have hap := hapart s hs
      simp only [Apart] at hap
      omega

/-- A segment is rearranged and split at `p`: what stands before `r` is at most `p`, what stands from `l` on is at
least `p`. -/
theorem split (hapart : ∀ s ∈ segs, Apart (b, e) s) (hr : Rearranged b e a a')
    {l r : ℕ} {p : α} (htrans : ∀ x y z, le x y → le y z → le x z)
    (hlow : ∀ i x, b ≤ i → i < r → a'[i]? = some x → le x p)
    (hhigh : ∀ i x, l ≤ i → i < e → a'[i]? = some x → le p x) : SortedUpTo le ((b, l) :: (r, e) :: segs) a' := by
  intro i j x y hij hx hy
  by_cases hi : b ≤ i ∧ i < e
  · by_cases hj : b ≤ j ∧ j < e
    -- both in the segment: left of `l`, right of `r`, or with `p` between them
    · by_cases hl : j < l
      · exact .inr ⟨(b, l), mem_cons_self, hi.1, hl⟩
      · by_cases hri : r ≤ i
        · exact .inr ⟨(r, e), mem_cons_of_mem _ mem_cons_self, hri, hj.2⟩
        · exact .inl (htrans x p y (hlow i x hi.1 (by omega) hx) (hhigh j y (by omega) hj.2 hy))
    · obtain ⟨i', hi', hx'⟩ := hr.exists_inside hi hx
      rw [hr.outside j hj] at hy
      exact .inl (h.le_outside hapart (by omega) hx' hy (.inl ⟨hi', hj⟩))
  · by_cases hj : b ≤ j ∧ j < e
    · obtain ⟨j', hj', hy'⟩ := hr.exists_inside hj hy
      rw [hr.outside i hi] at hx
      exact .inl (h.le_outside hapart (by omega) hx hy' (.inr ⟨hi, hj'⟩))
    · rw [hr.outside i hi] at hx
      rw [hr.outside j hj] at hy
      rcases h i j x y hij hx hy with hle | ⟨s, hs, hsi, hsj⟩
      · exact .inl hle
      · rcases mem_cons.1 hs with rfl | hs
        · exact absurd ⟨hsi, by simp only at hsj; omega⟩ hi
        · exact .inr ⟨s, mem_cons_of_mem _ (mem_cons_of_mem _ hs), hsi, hsj⟩

end

end SortedUpTo

/-! ## The depth of the stack -/

def size (s : ℕ × ℕ) : ℕ := s.2 - s.1

/-- The segment with `k` others under it has at most `n / 2 ^ k` positions. -/
def Halves (n : ℕ) : List (ℕ × ℕ) → Prop
  | [] => True
  | s :: segs => size s * 2 ^ segs.length ≤ n ∧ Halves n segs

namespace Halves

variable {n : ℕ} {s t u : ℕ × ℕ} {segs : List (ℕ × ℕ)}

theorem whole (n : ℕ) : Halves n [(0, n)] := by
  refine ⟨?_, trivial⟩
  rw [length_nil, pow_zero, mul_one]
  exact Nat.sub_le _ _

theorem push (h : Halves n (s :: segs)) (hsum : size t + size u ≤ size s) (hle : size t ≤ size u) :
    Halves n (t :: u :: segs) := by
  have hu : size u * 2 ^ segs.length ≤ size s * 2 ^ segs.length := Nat.mul_le_mul_right _ (by omega)
  have ht : size t * 2 ≤ size s := by omega
  refine ⟨?_, hu.trans h.1, h.2⟩
  calc size t * 2 ^ (segs.length + 1) = size t * 2 * 2 ^ segs.length := by rw [pow_succ', mul_assoc]
    _ ≤ size s * 2 ^ segs.length := Nat.mul_le_mul_right _ ht
    _ ≤ n := h.1

theorem depth (h : Halves n (s :: segs)) (hs : 2 ≤ size s) {k : ℕ} (hn : n < 2 ^ k) : segs.length + 1 < k := by
  have hpow : 2 ^ (segs.length + 1) ≤ n := by
    calc 2 ^ (segs.length + 1) = 2 * 2 ^ segs.length := pow_succ' _ _
      _ ≤ size s * 2 ^ segs.length := Nat.mul_le_mul_right _ hs
      _ ≤ n := h.1
  exact (Nat.pow_lt_pow_iff_right Nat.one_lt_two).1 (Nat.lt_of_le_of_lt hpow hn)

end Halves

end Segments
