import Picat.Lib.OptimumSearch

/-!
# `smt_solve_minimize`, `smt_solve_maximize`: optimisation by binary search

* `optimize_spec` : both end with an optimum and leave nothing behind.
-/

namespace Picat.Smt
open OptimumSearch List

/-- The facts of `smt_current_best_bound` and the value of `smt_current_best_answer`. -/
structure Globals (α : Type) where
  bestBound : List ℤ
  bestAnswer : Option α

section
variable {α : Type} (call : ℕ → ℤ → Option α) (reports : ℕ → ℕ) (obj : α → ℤ)

/-- The first rule, which always fails: what it has asserted and set stays. It is retried from `call(Report)`, which
succeeds `reports round` times. -/
def tryMidVal (round : ℕ) (ObjMin ObjMax MidVal : ℤ) (g : Globals α) : Globals α :=
  if ObjMin ≤ ObjMax then
    match call round MidVal with
    | some Vars =>
      if 0 < reports round then ⟨g.bestBound ++ List.replicate (reports round) (obj Vars), some Vars⟩ else g
    | none => g
  else g

def bestAnswerOf (g : Globals α) : Option α × Globals α :=
  match g.bestAnswer with
  | some Vars => (some Vars, ⟨g.bestBound, none⟩)
  | none => (none, g)

/-- `call round MidVal` is the answer of the solver when `ObjVar` is `MidVal` at most. -/
def minimizeRounds : ℕ → ℕ → ℤ → ℤ → Globals α → Option (Option α × Globals α)
  | 0, _, _, _, _ => none
  | fuel + 1, round, ObjMin, ObjMax, g =>
    let MidVal := (ObjMin + ObjMax) / 2
    let g1 := tryMidVal call reports obj round ObjMin ObjMax MidVal g
    match g1.bestBound with
    | Bound :: bounds => minimizeRounds fuel (round + 1) ObjMin (Bound - 1) ⟨bounds, g1.bestAnswer⟩
    | [] =>
      if ObjMin < ObjMax then minimizeRounds fuel (round + 1) (MidVal + 1) ObjMax g1
      else some (bestAnswerOf g1)

/-- `call round MidVal` is the answer of the solver when `ObjVar` is `MidVal` at least. -/
def maximizeRounds : ℕ → ℕ → ℤ → ℤ → Globals α → Option (Option α × Globals α)
  | 0, _, _, _, _ => none
  | fuel + 1, round, ObjMin, ObjMax, g =>
    let MidVal := (ObjMin + ObjMax) / 2
    let g1 := tryMidVal call reports obj round ObjMin ObjMax MidVal g
    match g1.bestBound with
    | Bound :: bounds => maximizeRounds fuel (round + 1) (Bound + 1) ObjMax ⟨bounds, g1.bestAnswer⟩
    | [] =>
      if ObjMin < ObjMax then maximizeRounds fuel (round + 1) ObjMin (MidVal - 1) g1
      else some (bestAnswerOf g1)

/-- `global_del` and `abolish` remove what an earlier search has left. -/
def cleared (_ : Globals α) : Globals α := ⟨[], none⟩

def smtSolveMinimize (fuel : ℕ) (ObjMin ObjMax : ℤ) (g : Globals α) : Option (Option α × Globals α) :=
  minimizeRounds call reports obj fuel 0 ObjMin ObjMax (cleared g)

def smtSolveMaximize (fuel : ℕ) (ObjMin ObjMax : ℤ) (g : Globals α) : Option (Option α × Globals α) :=
  maximizeRounds call reports obj fuel 0 ObjMin ObjMax (cleared g)

end

/-- The solver finds a solution for which the bound holds, whenever there is one. -/
structure Solves {α : Type} (S : Set α) (within : α → ℤ → Prop) (call : ℕ → ℤ → Option α) : Prop where
  sound : ∀ round m a, call round m = some a → a ∈ S ∧ within a m
  complete : ∀ round m, call round m = none → ∀ a ∈ S, ¬ within a m

section
variable {α : Type} {S : Set α} {obj : α → ℤ} {call : ℕ → ℤ → Option α} {reports : ℕ → ℕ}

theorem bestAnswerOf_eq (best : Option α) : bestAnswerOf ⟨[], best⟩ = (best, ⟨[], none⟩) := by
  cases best <;> rfl

section
variable (hreports : ∀ round, 0 < reports round)
include hreports

theorem tryMidVal_eq (round : ℕ) (ObjMin ObjMax MidVal : ℤ) (g : Globals α) :
    tryMidVal call reports obj round ObjMin ObjMax MidVal g =
      match if ObjMin ≤ ObjMax then call round MidVal else none with
      | some Vars => ⟨g.bestBound ++ List.replicate (reports round) (obj Vars), some Vars⟩
      | none => g := by
  unfold tryMidVal
  by_cases hle : ObjMin ≤ ObjMax
  · rw [if_pos hle, if_pos hle]
    cases call round MidVal with
    | none => rfl
    | some Vars => exact if_pos (hreports round)
  · rw [if_neg hle, if_neg hle]

theorem minimizeRounds_eq (fuel round : ℕ) (ObjMin ObjMax : ℤ) (bounds : List ℤ)
    (best : Option α) : minimizeRounds call reports obj fuel round ObjMin ObjMax ⟨bounds, best⟩ =
      (rounds (fun lo hi => (lo + hi) / 2) call reports obj fuel round ObjMin ObjMax bounds best).map
        fun r => (r, ⟨[], none⟩) := by
  induction fuel generalizing round ObjMin ObjMax bounds best with
  | zero => rfl
  | succ fuel ih =>
    rw [minimizeRounds, rounds, tryMidVal_eq hreports]
    dsimp only
    cases (if ObjMin ≤ ObjMax then call round ((ObjMin + ObjMax) / 2) else none) with
    | some Vars =>
      dsimp only
      cases bounds ++ List.replicate (reports round) (obj Vars) with
      | cons bound rest => exact ih ..
      | nil =>
        dsimp only
        split_ifs
        · exact ih ..
        · rw [bestAnswerOf_eq]
          rfl
    | none =>
      cases bounds with
      | cons bound rest => exact ih ..
      | nil =>
        dsimp only
        split_ifs
        · exact ih ..
        · rw [bestAnswerOf_eq]
          rfl

theorem maximizeRounds_eq (fuel round : ℕ) (ObjMin ObjMax : ℤ) (bounds : List ℤ)
    (best : Option α) : maximizeRounds call reports obj fuel round ObjMin ObjMax ⟨bounds, best⟩ =
      (rounds (fun lo hi => -((-hi + -lo) / 2)) (fun round m => call round (-m)) reports (fun a => -obj a) fuel round
        (-ObjMax) (-ObjMin) (bounds.map fun c => -c) best).map fun r => (r, ⟨[], none⟩) := by
  induction fuel generalizing round ObjMin ObjMax bounds best with
  | zero => rfl
  | succ fuel ih =>
    rw [maximizeRounds, rounds, tryMidVal_eq hreports]
    dsimp only
    simp only [neg_neg, neg_le_neg_iff, neg_lt_neg_iff]
    have htake : ∀ bound : ℤ, -bound - 1 = -(bound + 1) := fun bound => (neg_add' bound 1).symm
    have hmissed : -((ObjMin + ObjMax) / 2) + 1 = -((ObjMin + ObjMax) / 2 - 1) := by omega
    cases (if ObjMin ≤ ObjMax then call round ((ObjMin + ObjMax) / 2) else none) with
    | some Vars =>
      dsimp only
      rw [show List.replicate (reports round) (-obj Vars) = (List.replicate (reports round) (obj Vars)).map fun c => -c from
        map_replicate.symm, ← List.map_append]
      cases bounds ++ List.replicate (reports round) (obj Vars) with
      | cons bound rest =>
        rw [map_cons]
        dsimp only
        rw [htake]
        exact ih ..
      | nil =>
        rw [map_nil]
        dsimp only
        split_ifs
        · rw [hmissed]
          exact ih ..
        · rw [bestAnswerOf_eq]
          rfl
    | none =>
      cases bounds with
      | cons bound rest =>
        rw [map_cons]
        dsimp only
        rw [htake]
        exact ih ..
      | nil =>
        rw [map_nil]
        dsimp only
        split_ifs
        · rw [hmissed]
          exact ih ..
        · rw [bestAnswerOf_eq]
          rfl

end

/-- Between the bounds of the objective variable, both searches end: they fail when there is no solution, else they return
one with the least (greatest) objective, and no bound and no answer stays behind. -/
theorem optimize_spec {below above : ℕ → ℤ → Option α} (hbelow : Solves S (fun a m => obj a ≤ m) below)
    (habove : Solves S (fun a m => m ≤ obj a) above) (hreports : ∀ round, 0 < reports round) {ObjMin ObjMax : ℤ}
    (hdom : ∀ a ∈ S, ObjMin ≤ obj a ∧ obj a ≤ ObjMax) (g : Globals α) : ∃ N, ∀ fuel ≥ N,
      (∃ r, smtSolveMinimize below reports obj fuel ObjMin ObjMax g = some (r, ⟨[], none⟩) ∧ (r = none ↔ S = ∅) ∧
        ∀ b, r = some b → b ∈ S ∧ ∀ a ∈ S, obj b ≤ obj a) ∧
      ∃ r, smtSolveMaximize above reports obj fuel ObjMin ObjMax g = some (r, ⟨[], none⟩) ∧ (r = none ↔ S = ∅) ∧
        ∀ b, r = some b → b ∈ S ∧ ∀ a ∈ S, obj a ≤ obj b := by
  have hmin : Answers obj S below :=
    ⟨hbelow.sound, fun round m hnone a ha => not_le.1 (hbelow.complete round m hnone a ha)⟩
  have hmax : Answers (fun a => -obj a) S fun round m => above round (-m) := by
    constructor
    · intro round m a ha
      obtain ⟨hmem, hle⟩ := habove.sound round (-m) a ha
      exact ⟨hmem, neg_le.1 hle⟩
    · intro round m hnone a ha
      exact lt_neg.1 (not_le.1 (habove.complete round (-m) hnone a ha))
  have hmid1 : ∀ lo hi : ℤ, lo ≤ hi → lo ≤ (lo + hi) / 2 ∧ (lo + hi) / 2 ≤ hi := fun lo hi hle => by omega
  have hmid2 : ∀ lo hi : ℤ, lo ≤ hi → lo ≤ -((-hi + -lo) / 2) ∧ -((-hi + -lo) / 2) ≤ hi := fun lo hi hle => by omega
  have hends1 : Ends _ below reports obj S 0 ObjMin ObjMax [] none := rounds_spec hmin hreports hmid1 hdom
  have hends2 : Ends _ (fun round m => above round (-m)) reports (fun a => -obj a) S 0 (-ObjMax) (-ObjMin) [] none :=
    rounds_spec hmax hreports hmid2 fun a ha => ⟨neg_le_neg (hdom a ha).2, neg_le_neg (hdom a ha).1⟩
  obtain ⟨N1, r1, hopt1, hrun1⟩ := hends1
  obtain ⟨N2, r2, hopt2, hrun2⟩ := hends2
  refine ⟨max N1 N2, fun fuel hfuel => ⟨⟨r1, ?_, hopt1.none_iff, hopt1.least⟩, ⟨r2, ?_, hopt2.none_iff, ?_⟩⟩⟩
  · unfold smtSolveMinimize cleared
    rw [minimizeRounds_eq hreports, hrun1 fuel ((le_max_left N1 N2).trans hfuel)]
    rfl
  · unfold smtSolveMaximize cleared
    rw [maximizeRounds_eq hreports, map_nil, hrun2 fuel ((le_max_right N1 N2).trans hfuel)]
    rfl
  · intro b hb
    obtain ⟨hbS, hleast⟩ := hopt2.least b hb
    exact ⟨hbS, fun a ha => neg_le_neg_iff.1 (hleast a ha)⟩

end

theorem optimize_spec_negative : ∃ N, ∀ fuel ≥ N,
    (∃ r, smtSolveMinimize (fun _ m => if -5 ≤ m then some (-5) else none) (fun _ => 1) (fun a : ℤ => a) fuel (-7) 4
        ⟨[3], some 9⟩ =
      some (r, ⟨[], none⟩) ∧ (r = none ↔ ({-5, -2} : Set ℤ) = ∅) ∧
        ∀ b, r = some b → b ∈ ({-5, -2} : Set ℤ) ∧ ∀ a ∈ ({-5, -2} : Set ℤ), b ≤ a) ∧
    ∃ r, smtSolveMaximize (fun _ m => if m ≤ -2 then some (-2) else none) (fun _ => 1) (fun a : ℤ => a) fuel (-7) 4
        ⟨[3], some 9⟩ =
      some (r, ⟨[], none⟩) ∧ (r = none ↔ ({-5, -2} : Set ℤ) = ∅) ∧
        ∀ b, r = some b → b ∈ ({-5, -2} : Set ℤ) ∧ ∀ a ∈ ({-5, -2} : Set ℤ), a ≤ b := by
  have hmem : ∀ a ∈ ({-5, -2} : Set ℤ), a = -5 ∨ a = -2 := fun a ha => ha
  apply optimize_spec (S := {-5, -2})
  · constructor
    · intro round m a ha
      split_ifs at ha with hle
      rw [← Option.some.inj ha]
      exact ⟨.inl rfl, hle⟩
    · intro round m hnone a ha
      split_ifs at hnone with hle
      rcases hmem a ha with rfl | rfl <;> omega
  · constructor
    · intro round m a ha
      split_ifs at ha with hle
      rw [← Option.some.inj ha]
      exact ⟨.inr rfl, hle⟩
    · intro round m hnone a ha
      split_ifs at hnone with hle
      rcases hmem a ha with rfl | rfl <;> omega
  · exact fun _ => Nat.one_pos
  · intro a ha
    rcases hmem a ha with rfl | rfl <;> decide

end Picat.Smt
