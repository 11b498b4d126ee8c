import Mathlib.Order.Interval.Finset.Nat
import Picat.Global.Variables

/-!
# `seq_precede_chain`: every value is preceded by the one below

* `seqPrecedeChain_meets_iff` : when these are the same ones.
-/

namespace Picat.Global
open Finset DvarOrInt

section
variable (S T : ℤ) (X : List ℤ)

structure ValuePrecedePosted (B : ℕ → Bool) : Prop where
  seen : ∀ I ∈ Icc 1 X.length, elem X I = S → B (I + 1) = true
  same : ∀ I ∈ Icc 1 X.length, elem X I ≠ S → B I = B (I + 1)
  notYet : ∀ I ∈ Icc 1 X.length, B I = false → elem X I ≠ T
  start : B 1 = false

def valuePrecede : Prop := ∃ B, ValuePrecedePosted S T X B

end

def valuePrecedeChain (C X : List ℤ) : Prop := ∀ I ∈ Icc 2 C.length, valuePrecede (elem C (I - 1)) (elem C I) X

/-- `F` is 1. For an array without elements there is no `H[F]`, which raises an error. -/
structure SeqPrecedePosted (Low Up : ℤ) (X : List ℤ) (H : ℕ → ℤ) : Prop where
  index : 1 ≤ X.length
  dom : ∀ I ∈ Icc 1 X.length, Low ≤ H I ∧ H I ≤ Up
  firstLe : H 1 ≤ 1
  first : H 1 = max (elem X 1) 0
  step : ∀ I ∈ Icc 1 X.length, I ≠ 1 → H I ≤ H (I - 1) + 1
  maximum : ∀ I ∈ Icc 1 X.length, I ≠ 1 → H I = max (elem X I) (H (I - 1))

section
variable {ι : Type} (D : ι → Dom) (X : List (DvarOrInt ι))

def fdMinMax : ℤ × ℤ := ((X.map (fdMin D)).min?.getD 0, (X.map (fdMax D)).max?.getD 0)

def seqPrecedeChain (σ : ι → ℤ) : Prop :=
  ∃ H, SeqPrecedePosted (fdMinMax D X).1 (fdMinMax D X).2 (X.map (val σ)) H

/-- `[1,2,...,m]`, which is empty for negative `m`. -/
def oneTo (m : ℤ) : List ℤ := (List.range m.toNat).map fun (k : ℕ) => (k : ℤ) + 1

end

def OccursBefore (X : List ℤ) (v : ℤ) (I : ℕ) : Prop := ∃ J ∈ Ico 1 I, elem X J = v

def Preceded (X : List ℤ) : Prop := ∀ I ∈ Icc 1 X.length, 2 ≤ elem X I → OccursBefore X (elem X I - 1) I

/-! ## Pairs and chains of values -/

variable {v : ℤ} {I : ℕ}

theorem not_occursBefore_one {X : List ℤ} {v : ℤ} : ¬ OccursBefore X v 1 := by
  intro ⟨J, hJ, _⟩
  obtain ⟨h1, hlt⟩ := mem_Ico.1 hJ
  omega

theorem occursBefore_succ {X : List ℤ} (h1 : 1 ≤ I) : OccursBefore X v (I + 1) ↔ elem X I = v ∨ OccursBefore X v I := by
  constructor
  · intro h
    obtain ⟨J, hJ, hval⟩ := h
    obtain ⟨hJ1, hJI⟩ := mem_Ico.1 hJ
    rcases Nat.lt_succ_iff_lt_or_eq.1 hJI with hlt | rfl
    · exact .inr ⟨J, mem_Ico.2 ⟨hJ1, hlt⟩, hval⟩
    · exact .inl hval
  · intro h
    rcases h with hval | ⟨J, hJ, hval⟩
    · exact ⟨I, mem_Ico.2 ⟨h1, Nat.lt_succ_self I⟩, hval⟩
    · obtain ⟨hJ1, hJI⟩ := mem_Ico.1 hJ
      exact ⟨J, mem_Ico.2 ⟨hJ1, hJI.trans (Nat.lt_succ_self I)⟩, hval⟩

theorem valuePrecede_iff {S T : ℤ} {X : List ℤ} :
    valuePrecede S T X ↔ ∀ I ∈ Icc 1 X.length, elem X I = T → OccursBefore X S I := by
  constructor
  · intro hp
    obtain ⟨B, h⟩ := hp
    -- `B[I]` is only set after an occurrence of `S`
    have hseen : ∀ I, 1 ≤ I → I ≤ X.length + 1 → B I = true → OccursBefore X S I := by
      intro I h1
      induction I, h1 using Nat.le_induction with
      | base =>
        intro _ hB
        exact absurd (h.start.symm.trans hB) Bool.false_ne_true
      | succ I h1 ih =>
        intro hI hB
        apply (occursBefore_succ h1).2
        by_cases hS : elem X I = S
        · exact .inl hS
        · exact .inr (ih (by omega) ((h.same I (mem_Icc.2 ⟨h1, by omega⟩) hS).trans hB))
    intro I hI hT
    obtain ⟨h1, hN⟩ := mem_Icc.1 hI
    apply hseen I h1 (hN.trans (Nat.le_succ _))
    by_contra hB
    exact h.notYet I hI (Bool.eq_false_of_not_eq_true hB) hT
  · intro hall
    classical
    refine ⟨fun I => decide (OccursBefore X S I), ?_, ?_, ?_, ?_⟩
    · intro I hI hS
      exact decide_eq_true ((occursBefore_succ (mem_Icc.1 hI).1).2 (.inl hS))
    · intro I hI hS
      apply decide_eq_decide.2
      rw [occursBefore_succ (mem_Icc.1 hI).1]
      exact (or_iff_right hS).symm
    · intro I hI hB hT
      exact of_decide_eq_false hB (hall I hI hT)
    · exact decide_eq_false not_occursBefore_one

theorem length_oneTo (m : ℤ) : (oneTo m).length = m.toNat := by
  unfold oneTo
  rw [List.length_map, List.length_range]

theorem elem_oneTo {m : ℤ} (h1 : 1 ≤ I) (h : I ≤ m.toNat) : elem (oneTo m) I = I := by
  obtain ⟨I, rfl⟩ := Nat.exists_eq_add_of_le' h1
  rw [elem_succ (h.trans_eq (length_oneTo m).symm)]
  unfold oneTo
  rw [List.getElem_map, List.getElem_range]
  rfl

theorem valuePrecedeChain_iff {X : List ℤ} {m : ℤ} (hm : ∀ x ∈ X, x ≤ m) :
    valuePrecedeChain (oneTo m) X ↔ Preceded X := by
  unfold valuePrecedeChain
  simp only [valuePrecede_iff, length_oneTo]
  constructor
  · intro h I hI h2
    have hle : elem X I ≤ m := hm _ (elem_mem (mem_Icc.1 hI).1 (mem_Icc.1 hI).2)
    obtain ⟨v, hv⟩ := Int.eq_ofNat_of_zero_le (show 0 ≤ elem X I by omega)
    have hlow := elem_oneTo (m := m) (I := v - 1) (by omega) (by omega)
    obtain ⟨J, hJ, hval⟩ := h v (mem_Icc.2 ⟨by omega, by omega⟩) I hI
      (hv.trans (elem_oneTo (by omega) (by omega)).symm)
    exact ⟨J, hJ, by omega⟩
  · intro h v hv I hI heq
    obtain ⟨h2, hv⟩ := mem_Icc.1 hv
    rw [elem_oneTo (by omega) hv] at heq
    obtain ⟨J, hJ, hval⟩ := h I hI (by omega)
    refine ⟨J, hJ, ?_⟩
    rw [elem_oneTo (by omega) (by omega), hval, heq]
    omega

/-! ## The running maximum -/

section
variable {X : List ℤ}

/-- The greatest of the first `I` elements and 0. -/
def runningMax (X : List ℤ) : ℕ → ℤ
  | 0 => 0
  | I + 1 => max (elem X (I + 1)) (runningMax X I)

theorem runningMax_nonneg (I : ℕ) : 0 ≤ runningMax X I := by
  induction I with
  | zero => exact le_refl 0
  | succ I ih => exact le_max_of_le_right ih

theorem elem_le_runningMax {J : ℕ} (h1 : 1 ≤ J) (hJ : J ≤ I) : elem X J ≤ runningMax X I := by
  induction I, hJ using Nat.le_induction with
  | base =>
    obtain ⟨J, rfl⟩ := Nat.exists_eq_add_of_le' h1
    exact le_max_left _ _
  | succ I _ ih => exact le_max_of_le_right ih

/-- The elements never exceed the running maximum by more than 1. -/
def StepsByOne (X : List ℤ) : Prop := ∀ I < X.length, elem X (I + 1) ≤ runningMax X I + 1

theorem StepsByOne.attained (h : StepsByOne X) (hI : I ≤ X.length) (h1 : 1 ≤ v)
    (hv : v ≤ runningMax X I) : ∃ J ∈ Icc 1 I, elem X J = v := by
  induction I with
  | zero => exact absurd (h1.trans hv) Int.one_pos.not_ge
  | succ I ih =>
    by_cases hle : v ≤ runningMax X I
    · obtain ⟨J, hJ, hval⟩ := ih (Nat.le_of_succ_le hI) hle
      exact ⟨J, Icc_subset_Icc_right (Nat.le_succ I) hJ, hval⟩
    · have hstep := h I hI
      have hmax := (le_max_iff.1 hv).resolve_right hle
      exact ⟨I + 1, mem_Icc.2 ⟨Nat.le_add_left 1 I, le_refl _⟩, by omega⟩

theorem stepsByOne_iff : StepsByOne X ↔ Preceded X := by
  constructor
  · intro h I hI h2
    obtain ⟨h1, hN⟩ := mem_Icc.1 hI
    obtain ⟨I, rfl⟩ := Nat.exists_eq_add_of_le' h1
    have hstep := h I hN
    obtain ⟨J, hJ, hval⟩ := h.attained (Nat.le_of_succ_le hN) (v := elem X (I + 1) - 1) (by omega) (by omega)
    obtain ⟨hJ1, hJI⟩ := mem_Icc.1 hJ
    exact ⟨J, mem_Ico.2 ⟨hJ1, Nat.lt_succ_of_le hJI⟩, hval⟩
  · intro h I hI
    by_cases h2 : 2 ≤ elem X (I + 1)
    · obtain ⟨J, hJ, hval⟩ := h (I + 1) (mem_Icc.2 ⟨Nat.le_add_left 1 I, hI⟩) h2
      obtain ⟨hJ1, hJI⟩ := mem_Ico.1 hJ
      have := elem_le_runningMax (X := X) hJ1 (Nat.le_of_lt_succ hJI)
      omega
    · have := runningMax_nonneg (X := X) I
      omega

namespace SeqPrecedePosted
variable {Low Up : ℤ} {H : ℕ → ℤ}

theorem eq_runningMax (h : SeqPrecedePosted Low Up X H) (h1 : 1 ≤ I) (hI : I ≤ X.length) : H I = runningMax X I := by
  induction I, h1 using Nat.le_induction with
  | base => exact h.first
  | succ I h1 ih =>
    have hmax := h.maximum (I + 1) (mem_Icc.2 ⟨Nat.le_succ_of_le h1, hI⟩) (by omega)
    rw [Nat.add_sub_cancel, ih (Nat.le_of_succ_le hI)] at hmax
    exact hmax

theorem stepsByOne (h : SeqPrecedePosted Low Up X H) : StepsByOne X := by
  intro I hI
  by_cases hI0 : I = 0
  · have hfirst := h.first
    have hle := h.firstLe
    rw [hI0]
    change elem X 1 ≤ 0 + 1
    omega
  · have hstep := h.step (I + 1) (mem_Icc.2 ⟨Nat.le_add_left 1 I, hI⟩) (by omega)
    rw [Nat.add_sub_cancel, h.eq_runningMax (by omega) hI, h.eq_runningMax (by omega) hI.le] at hstep
    exact (le_max_left _ _).trans hstep

end SeqPrecedePosted

end

/-! ## The bounds -/

section
variable {ι : Type} {D : ι → Dom} {X : List (DvarOrInt ι)} {σ : ι → ℤ}

theorem fdMinMax_bounds (hσ : Inside D σ) (hv : v ∈ X.map (val σ)) : (fdMinMax D X).1 ≤ v ∧ v ≤ (fdMinMax D X).2 := by
  obtain ⟨x, hx, rfl⟩ := List.mem_map.1 hv
  constructor
  · exact (min?_getD_le (List.mem_map_of_mem hx)).trans (fdMin_le hσ x)
  · exact (le_fdMax hσ x).trans (le_max?_getD (List.mem_map_of_mem hx))

theorem exists_fdMax_nonneg_iff (hne : X ≠ []) : (∃ x ∈ X, 0 ≤ x.fdMax D) ↔ 0 ≤ (fdMinMax D X).2 := by
  constructor
  · intro hx
    obtain ⟨x, hx, h0⟩ := hx
    exact h0.trans (le_max?_getD (List.mem_map_of_mem hx))
  · intro h0
    have hmem := max?_getD_mem (l := X.map (fdMax D)) fun hnil => hne (List.map_eq_nil_iff.1 hnil)
    obtain ⟨x, hx, heq⟩ := List.mem_map.1 hmem
    exact ⟨x, hx, h0.trans_eq heq.symm⟩

theorem StepsByOne.posted {X : List ℤ} {Low Up : ℤ} (h : StepsByOne X) (h1 : 1 ≤ X.length) (h0 : 0 ≤ Up)
    (hdom : ∀ x ∈ X, Low ≤ x ∧ x ≤ Up) : SeqPrecedePosted Low Up X (runningMax X) := by
  have hsucc : ∀ I ∈ Icc 1 X.length, ∃ J < X.length, I = J + 1 := by
    intro I hI
    obtain ⟨h1, hN⟩ := mem_Icc.1 hI
    obtain ⟨J, rfl⟩ := Nat.exists_eq_add_of_le' h1
    exact ⟨J, hN, rfl⟩
  have hstep : ∀ I < X.length, runningMax X (I + 1) ≤ runningMax X I + 1 := fun I hI =>
    max_le (h I hI) (le_add_of_nonneg_right zero_le_one)
  have hle : ∀ I ≤ X.length, runningMax X I ≤ Up := by
    intro I
    induction I with
    | zero => exact fun _ => h0
    | succ I ih => exact fun hI => max_le (hdom _ (elem_mem (Nat.le_add_left 1 I) hI)).2 (ih (Nat.le_of_succ_le hI))
  refine ⟨h1, ?_, hstep 0 h1, rfl, ?_, ?_⟩
  · intro I hI
    obtain ⟨h1, hN⟩ := mem_Icc.1 hI
    exact ⟨(hdom _ (elem_mem h1 hN)).1.trans (elem_le_runningMax h1 (le_refl I)), hle I hN⟩
  · intro I hI _
    obtain ⟨J, hJ, rfl⟩ := hsucc I hI
    exact hstep J hJ
  · intro I hI _
    obtain ⟨J, -, rfl⟩ := hsucc I hI
    rfl

theorem seqPrecedeChain_iff (hσ : Inside D σ) :
    seqPrecedeChain D X σ ↔ (∃ x ∈ X, 0 ≤ x.fdMax D) ∧ Preceded (X.map (val σ)) := by
  constructor
  · intro hp
    obtain ⟨H, h⟩ := hp
    refine ⟨?_, stepsByOne_iff.1 h.stepsByOne⟩
    have hne : X ≠ [] := by
      intro hnil
      have hlen := h.index
      rw [hnil] at hlen
      exact Nat.not_succ_le_zero _ hlen
    rw [exists_fdMax_nonneg_iff hne]
    calc (0 : ℤ) ≤ H 1 := by
          rw [h.first]
          exact le_max_right _ _
      _ ≤ _ := (h.dom 1 (mem_Icc.2 ⟨le_refl 1, h.index⟩)).2
  · intro ⟨hex, hprec⟩
    have hne : X ≠ [] := by
      obtain ⟨x, hx, -⟩ := hex
      exact List.ne_nil_of_mem hx
    refine ⟨_, (stepsByOne_iff.2 hprec).posted ?_ ((exists_fdMax_nonneg_iff hne).1 hex) fun v hv => fdMinMax_bounds hσ hv⟩
    rw [List.length_map]
    exact List.length_pos_iff.2 hne

/-- `value_precede_chain([1,2,...,m],X)`, for the largest value `m` of any domain, accepts the assignments in which every
value is preceded; `seq_precede_chain` does when `m` is not negative. -/
theorem seqPrecedeChain_meets_iff (D : ι → Dom) (X : List (DvarOrInt ι)) :
    ((∀ σ, Inside D σ → (seqPrecedeChain D X σ ↔ valuePrecedeChain (oneTo (fdMinMax D X).2) (X.map (val σ)))) ↔
      ∃ x ∈ X, 0 ≤ x.fdMax D) ∧
    ∀ σ, Inside D σ → (valuePrecedeChain (oneTo (fdMinMax D X).2) (X.map (val σ)) ↔ Preceded (X.map (val σ))) := by
  have hchain : ∀ σ, Inside D σ →
      (valuePrecedeChain (oneTo (fdMinMax D X).2) (X.map (val σ)) ↔ Preceded (X.map (val σ))) := fun σ hσ =>
    valuePrecedeChain_iff fun v hv => (fdMinMax_bounds hσ hv).2
  refine ⟨?_, hchain⟩
  constructor
  · intro h
    by_contra hneg
    push Not at hneg
    obtain ⟨σ, hσ⟩ := exists_inside D
    -- no value has to be preceded
    have hprec : Preceded (X.map (val σ)) := by
      intro I hI h2
      obtain ⟨x, hx, heq⟩ := List.mem_map.1 (elem_mem (mem_Icc.1 hI).1 (mem_Icc.1 hI).2)
      have := hneg x hx
      have := le_fdMax hσ x
      omega
    obtain ⟨x, hx, h0⟩ := ((seqPrecedeChain_iff hσ).1 ((h σ hσ).2 ((hchain σ hσ).2 hprec))).1
    exact absurd h0 (hneg x hx).not_ge
  · intro hex σ hσ
    rw [seqPrecedeChain_iff hσ, hchain σ hσ]
    exact and_iff_right hex

end

/-- One variable with the value -1 only. -/
theorem seqPrecedeChain_negative : ¬ ∀ σ, Inside (fun _ : Unit => ⟨{-1}, singleton_nonempty _⟩) σ →
    (seqPrecedeChain (fun _ : Unit => ⟨{-1}, singleton_nonempty _⟩) [var ()] σ ↔
      valuePrecedeChain (oneTo (fdMinMax (fun _ : Unit => ⟨{-1}, singleton_nonempty _⟩) [var ()]).2)
        ([var ()].map (val σ))) := by
  intro h
  have hσ : Inside (fun _ : Unit => ⟨{-1}, singleton_nonempty _⟩) fun _ => -1 := fun _ => mem_singleton_self _
  obtain ⟨H, hH⟩ := (h _ hσ).2 fun I hI => absurd (mem_Icc.1 hI) (by
    have hlen : (oneTo (-1)).length = 0 := length_oneTo (-1)
    change ¬ (2 ≤ I ∧ I ≤ (oneTo (-1)).length)
    omega)
  have hdom := (hH.dom 1 (mem_Icc.2 ⟨le_refl 1, le_refl 1⟩)).2
  have hfirst : H 1 = 0 := hH.first
  have hup : H 1 ≤ -1 := hdom
  omega

end Picat.Global
