import Mathlib.Data.Int.ConditionallyCompleteOrder
import Mathlib.Data.Int.Interval
import Mathlib.Order.ConditionallyCompleteLattice.Finset
import Mathlib.Tactic.Ring

/-!
# One machine

Jobs with a start time and a duration, of which the machine runs one at a time: of two jobs one is over before the other
starts.

* `first_of_full`, `last_of_full` : edge finding. A job that cannot run inside of a set of jobs for want of time comes
  before or after all of them, which bounds its start.
-/

namespace OneMachine

open List

variable {ι : Type*} {start dur : ι → ℤ} {Q : List ι} {T i : ι} {E L L' E' : ℤ}

def Apart (start dur : ι → ℤ) (i j : ι) : Prop := start i + dur i ≤ start j ∨ start j + dur j ≤ start i

theorem Apart.symm {i j : ι} (h : Apart start dur i j) : Apart start dur j i := Or.symm h

/-- The jobs start at `E` or later, and are over at `L`. -/
structure Fits (start dur : ι → ℤ) (Q : List ι) (E L : ℤ) : Prop where
  est : ∀ i ∈ Q, E ≤ start i
  lct : ∀ i ∈ Q, start i + dur i ≤ L

namespace Fits

theorem mono (h : Fits start dur Q E L) (hE : E' ≤ E) (hL : L ≤ L') : Fits start dur Q E' L' where
  est := fun i hi => hE.trans (h.est i hi)
  lct := fun i hi => (h.lct i hi).trans hL

theorem cons (h : Fits start dur Q E L) (hE : E ≤ start T) (hL : start T + dur T ≤ L) :
    Fits start dur (T :: Q) E L where
  est := forall_mem_cons.2 ⟨hE, h.est⟩
  lct := forall_mem_cons.2 ⟨hL, h.lct⟩

theorem singleton (hE : E ≤ start T) (hL : start T + dur T ≤ L) : Fits start dur [T] E L where
  est := by simpa using hE
  lct := by simpa using hL

theorem perm {Q' : List ι} (h : Fits start dur Q E L) (hp : Q.Perm Q') : Fits start dur Q' E L where
  est := fun i hi => h.est i (hp.mem_iff.2 hi)
  lct := fun i hi => h.lct i (hp.mem_iff.2 hi)

end Fits

/-! ## The time that is taken -/

noncomputable def busy (start dur : ι → ℤ) (Q : List ι) : Finset ℤ :=
  Q.foldr (fun i B => Finset.Ico (start i) (start i + dur i) ∪ B) ∅

theorem busy_cons : busy start dur (T :: Q) = Finset.Ico (start T) (start T + dur T) ∪ busy start dur Q := rfl

theorem mem_busy {a : ℤ} : a ∈ busy start dur Q ↔ ∃ i ∈ Q, start i ≤ a ∧ a < start i + dur i := by
  induction Q with
  | nil => simp [busy]
  | cons i Q ih => simp [busy_cons, ih]

theorem card_busy (hap : Q.Pairwise (Apart start dur)) (hdur : ∀ i ∈ Q, 0 ≤ dur i) :
    ((busy start dur Q).card : ℤ) = (Q.map dur).sum := by
  induction Q with
  | nil => rfl
  | cons i Q ih =>
    obtain ⟨hi, hQ⟩ := pairwise_cons.1 hap
    have hdisj : Disjoint (Finset.Ico (start i) (start i + dur i)) (busy start dur Q) := by
      rw [Finset.disjoint_left]
      intro a ha hb
      obtain ⟨j, hj, hbusy⟩ := mem_busy.1 hb
      have hin := Finset.mem_Ico.1 ha
      rcases hi j hj with h | h <;> omega
    have hpos := hdur i mem_cons_self
    rw [busy_cons, Finset.card_union_of_disjoint hdisj, Int.card_Ico, map_cons, sum_cons, Nat.cast_add,
      ih hQ fun j hj => hdur j (mem_cons_of_mem _ hj)]
    omega

theorem total_le (hne : Q ≠ []) (hap : Q.Pairwise (Apart start dur)) (hdur : ∀ i ∈ Q, 0 ≤ dur i)
    (hfit : Fits start dur Q E L) : (Q.map dur).sum ≤ L - E := by
  have hsub : busy start dur Q ⊆ Finset.Ico E L := by
    intro a ha
    obtain ⟨i, hi, hbusy⟩ := mem_busy.1 ha
    have hest := hfit.est i hi
    have hlct := hfit.lct i hi
    exact Finset.mem_Ico.2 ⟨by omega, by omega⟩
  obtain ⟨i, hi⟩ := exists_mem_of_ne_nil Q hne
  have hest := hfit.est i hi
  have hlct := hfit.lct i hi
  have hpos := hdur i hi
  have hcard := Finset.card_le_card hsub
  rw [Int.card_Ico] at hcard
  rw [← card_busy hap hdur]
  omega

/-! ## Edge finding -/

theorem first_of_full (hap : (T :: Q).Pairwise (Apart start dur)) (hdur : ∀ i ∈ T :: Q, 0 ≤ dur i)
    (hfit : Fits start dur Q E L) (hend : start T + dur T ≤ L') (hL : L ≤ L')
    (hfull : L' < E + ((Q.map dur).sum + dur T)) : ∀ i ∈ Q, start T + dur T ≤ start i := by
  intro i hi
  by_contra hnot
  have hafter : start i + dur i ≤ start T := ((pairwise_cons.1 hap).1 i hi).resolve_left hnot
  have hest := hfit.est i hi
  have hpos := hdur i (mem_cons_of_mem _ hi)
  have htotal := total_le (cons_ne_nil T Q) hap hdur ((hfit.mono (le_refl E) hL).cons (by omega) hend)
  rw [map_cons, sum_cons] at htotal
  omega

theorem start_le_of_first (hne : Q ≠ []) (hap : (T :: Q).Pairwise (Apart start dur)) (hdur : ∀ i ∈ T :: Q, 0 ≤ dur i)
    (hfit : Fits start dur Q E L) (hfirst : ∀ i ∈ Q, start T + dur T ≤ start i) :
    start T ≤ L - ((Q.map dur).sum + dur T) := by
  have htotal := total_le hne (pairwise_cons.1 hap).2 (fun i hi => hdur i (mem_cons_of_mem _ hi))
    ⟨hfirst, hfit.lct⟩
  omega

theorem last_of_full (hap : (T :: Q).Pairwise (Apart start dur)) (hdur : ∀ i ∈ T :: Q, 0 ≤ dur i)
    (hfit : Fits start dur Q E L) (hstart : E' ≤ start T) (hE : E' ≤ E)
    (hfull : L < E' + ((Q.map dur).sum + dur T)) : ∀ i ∈ Q, start i + dur i ≤ start T := by
  intro i hi
  by_contra hnot
  have hbefore : start T + dur T ≤ start i := ((pairwise_cons.1 hap).1 i hi).resolve_right hnot
  have hlct := hfit.lct i hi
  have hpos := hdur i (mem_cons_of_mem _ hi)
  have htotal := total_le (cons_ne_nil T Q) hap hdur ((hfit.mono hE (le_refl L)).cons hstart (by omega))
  rw [map_cons, sum_cons] at htotal
  omega

theorem le_start_of_last (hne : Q ≠ []) (hap : (T :: Q).Pairwise (Apart start dur)) (hdur : ∀ i ∈ T :: Q, 0 ≤ dur i)
    (hfit : Fits start dur Q E L) (hlast : ∀ i ∈ Q, start i + dur i ≤ start T) :
    E + (Q.map dur).sum ≤ start T := by
  have htotal := total_le hne (pairwise_cons.1 hap).2 (fun i hi => hdur i (mem_cons_of_mem _ hi))
    ⟨hfit.est, hlast⟩
  omega

end OneMachine
