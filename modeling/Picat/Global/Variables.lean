import Mathlib.Data.Finset.Max
import Mathlib.Data.List.GetD

/-!
# Variables with domains

* `elem` : elements of lists and arrays, by their indices.
-/

namespace Picat.Global

abbrev Dom := { s : Finset ℤ // s.Nonempty }

inductive DvarOrInt (ι : Type) where
  | int (c : ℤ)
  | var (i : ι)

variable {ι : Type}

def Inside (D : ι → Dom) (σ : ι → ℤ) : Prop := ∀ i, σ i ∈ (D i).1

theorem exists_inside (D : ι → Dom) : ∃ σ, Inside D σ :=
  ⟨fun i => (D i).1.min' (D i).2, fun _ => Finset.min'_mem _ _⟩

namespace DvarOrInt

def val (σ : ι → ℤ) : DvarOrInt ι → ℤ
  | int c => c
  | var i => σ i

section
variable (D : ι → Dom)

def fdMin : DvarOrInt ι → ℤ
  | int c => c
  | var i => (D i).1.min' (D i).2

def fdMax : DvarOrInt ι → ℤ
  | int c => c
  | var i => (D i).1.max' (D i).2

/-- `var(X)`: a variable whose domain has one value only is bound to it. -/
def isVar : DvarOrInt ι → Bool
  | int _ => false
  | var i => (D i).1.card ≠ 1

end

variable {D : ι → Dom} {σ : ι → ℤ}

theorem fdMin_le (h : Inside D σ) (x : DvarOrInt ι) : x.fdMin D ≤ x.val σ := by
  cases x with
  | int c => exact le_refl c
  | var i => exact Finset.min'_le _ _ (h i)

theorem le_fdMax (h : Inside D σ) (x : DvarOrInt ι) : x.val σ ≤ x.fdMax D := by
  cases x with
  | int c => exact le_refl c
  | var i => exact Finset.le_max' _ _ (h i)

theorem fdMin_eq (h : Inside D σ) {x : DvarOrInt ι} (hx : x.isVar D = false) : x.fdMin D = x.val σ := by
  cases x with
  | int c => rfl
  | var i =>
    have hcard : (D i).1.card = 1 := by
      by_contra hne
      exact Bool.false_ne_true (hx.symm.trans (decide_eq_true hne))
    exact Finset.card_le_one.1 hcard.le _ (Finset.min'_mem _ _) _ (h i)

end DvarOrInt

/-! ## Elements -/

theorem min?_getD_le {l : List ℤ} {a : ℤ} (h : a ∈ l) : l.min?.getD 0 ≤ a := by
  obtain ⟨b, hb⟩ := Option.isSome_iff_exists.1 (List.isSome_min?_of_mem h)
  rw [hb, Option.getD_some]
  exact (List.min?_eq_some_iff.1 hb).2 a h

theorem le_max?_getD {l : List ℤ} {a : ℤ} (h : a ∈ l) : a ≤ l.max?.getD 0 := by
  obtain ⟨b, hb⟩ := Option.isSome_iff_exists.1 (List.isSome_max?_of_mem h)
  rw [hb, Option.getD_some]
  exact (List.max?_eq_some_iff.1 hb).2 a h

theorem max?_getD_mem {l : List ℤ} (h : l ≠ []) : l.max?.getD 0 ∈ l := by
  obtain ⟨b, hb⟩ := Option.isSome_iff_exists.1 (List.isSome_max?_iff.2 h)
  rw [hb, Option.getD_some]
  exact (List.max?_eq_some_iff.1 hb).1

/-- `Vs[I]`, where the first element has index 1. -/
def elem (Vs : List ℤ) (I : ℕ) : ℤ := Vs.getD (I - 1) 0

theorem elem_succ {Vs : List ℤ} {I : ℕ} (h : I < Vs.length) : elem Vs (I + 1) = Vs[I] := List.getD_eq_getElem Vs 0 h

theorem elem_mem {Vs : List ℤ} {I : ℕ} (h1 : 1 ≤ I) (h : I ≤ Vs.length) : elem Vs I ∈ Vs := by
  obtain ⟨I, rfl⟩ := Nat.exists_eq_add_of_le' h1
  rw [elem_succ h]
  exact List.getElem_mem h

end Picat.Global
