import Picat.Tabling.VariantTest

/-!
# The subsumption test

`term_subsume_term` numbers the variables of the specific term, matches the general term with it, and undoes both with
the trail. A variable of the general term that has no number is bound to the subterm that it meets first, and from then
on leads there.

* `termSubsumeTerm_iff` : what the test finds out.
-/

namespace Picat

open Variants VariantTest Function List

variable {u : Tm Label ℕ}

namespace SubsumeTest

/-! ## The routines -/

/-- The content of a variable's cell: as `numberVarTermOpt` leaves it, or the word of a compound term. -/
inductive Cell where
  | var (c : VarCell)
  | term (u : Tm Label ℕ)

/-- The cells, and the part of the trail from `trail_top0` on, the last entry first. -/
structure SubsumeState where
  cells : ℕ → Cell
  trail : List (ℕ × Cell)

/-- What `DEREF_NONVAR` comes to. -/
def SubsumeState.word (st : SubsumeState) : Tm Label ℕ → Cell
  | .var y => st.cells y
  | .app f args => .term (.app f args)

/-- `ASSIGN_TRAIL_VALUE` -/
def SubsumeState.assign (st : SubsumeState) (x : ℕ) (t2 : Tm Label ℕ) : SubsumeState where
  cells := update st.cells x (st.word t2)
  trail := (x, st.cells x) :: st.trail

def Cell.number? : Cell → Option ℕ
  | var c => c.number?
  | term _ => none

section
variable (bound : SubsumeState → Tm Label ℕ → Tm Label ℕ → Option (Bool × SubsumeState))

/-- A variable `x` of `t1`; one that has been bound to a compound term leads on there. -/
def subsumeVar (st : SubsumeState) (x : ℕ) (t2 : Tm Label ℕ) : Option (Bool × SubsumeState) :=
  match st.cells x with
  | .var .free => some (true, st.assign x t2)
  | .var (.num n) => some ((st.word t2).number? == some n, st)
  | .var .susp => some (false, st)
  | .term u => bound st u t2

mutual

/-- `term_subsume_numberedterm` up to the terms that variables are bound to. -/
def subsumeWith (st : SubsumeState) : Tm Label ℕ → Tm Label ℕ → Option (Bool × SubsumeState)
  | .var x, t2 => subsumeVar bound st x t2
  | .app _ _, .var _ => some (false, st)
  | .app f args1, .app g args2 => if f = g then subsumeArgs st args1 args2 else some (false, st)

def subsumeArgs (st : SubsumeState) : List (Tm Label ℕ) → List (Tm Label ℕ) → Option (Bool × SubsumeState)
  | [], [] => some (true, st)
  | t :: ts, u :: us =>
    match subsumeWith st t u with
    | some (true, st) => subsumeArgs st ts us
    | r => r
  | _, _ => some (false, st)

end

end

/-- `term_subsume_numberedterm`, at most so many bound variables deep. -/
def termSubsumeNumberedterm : ℕ → SubsumeState → Tm Label ℕ → Tm Label ℕ → Option (Bool × SubsumeState)
  | 0, _, _, _ => none
  | fuel + 1, st, t1, t2 => subsumeWith (termSubsumeNumberedterm fuel) st t1 t2

/-- `UNDO_TRAILING` -/
def undoTrail : List (ℕ × Cell) → (ℕ → Cell) → ℕ → Cell
  | [], cells => cells
  | (x, old) :: trail, cells => undoTrail trail (update cells x old)

/-- The state after `numberVarTermOpt`. -/
def numberedState (st : NumberState) : SubsumeState where
  cells := fun x => .var (st.cells x)
  trail := st.trail.map fun e => (e.1, .var e.2)

/-- `term_subsume_term`, with the cells that it leaves. -/
def termSubsumeTerm (cells : ℕ → VarCell) (op1 op2 : HeapTerm) : Option (Bool × (ℕ → Cell)) :=
  let st := numberedState (VariantTest.numberVarTermOpt ⟨cells, 0, []⟩ op2)
  match termSubsumeNumberedterm (op1.tree.occs.length + 2) st op1.tree op2.tree with
  | some (i, st) => some (i, undoTrail st.trail st.cells)
  | none => none

/-! ## Bindings -/

section
variable {cells : ℕ → VarCell} {t : Tm Label ℕ} {ν : ℕ → ℕ} {θ θ' : ℕ → Option (Tm Label ℕ)} {st st' : SubsumeState}
  {σ : ℕ → Tm Label ℕ}

variable (cells t ν) in
/-- Numbers in the cells of the specific term, bindings to its subterms in those of free variables, and everything else
as it was. -/
structure Bound (θ : ℕ → Option (Tm Label ℕ)) (st : SubsumeState) : Prop where
  number : ∀ y ∈ t.occs, st.cells y = .var (.num (ν y))
  unbound : ∀ x ∉ t.occs, θ x = none → st.cells x = .var (cells x)
  bound : ∀ x u, θ x = some u → x ∉ t.occs ∧ cells x = .free ∧ (∀ y ∈ u.occs, y ∈ t.occs) ∧ st.cells x = st.word u
  undo : undoTrail st.trail st.cells = fun x => .var (cells x)

variable (cells t) in
/-- A substitution that leaves the variables of the specific term and all suspension variables alone, and agrees with the
bindings. -/
structure Solves (θ : ℕ → Option (Tm Label ℕ)) (σ : ℕ → Tm Label ℕ) : Prop where
  specific : ∀ y ∈ t.occs, σ y = .var y
  susp : ∀ x, cells x = .susp → σ x = .var x
  binding : ∀ x u, θ x = some u → σ x = u

variable (cells t ν) in
/-- Matching `s` with `u` has come to `b`: the substitutions that match them are those that agree with the bindings
there are now, or there is none. -/
def Matched (θ : ℕ → Option (Tm Label ℕ)) (s u : Tm Label ℕ) (b : Bool) (st : SubsumeState) : Prop :=
  ∃ θ', Bound cells t ν θ' st ∧ if b then ∀ σ, Solves cells t θ' σ ↔ Solves cells t θ σ ∧ s.subst σ = u
    else ∀ σ, Solves cells t θ σ → s.subst σ ≠ u

variable (cells t ν) in
def Answers (bound : SubsumeState → Tm Label ℕ → Tm Label ℕ → Option (Bool × SubsumeState)) : Prop :=
  ∀ {θ st}, Bound cells t ν θ st → ∀ v u : Tm Label ℕ, (∀ y ∈ v.occs, y ∈ t.occs) → (∀ y ∈ u.occs, y ∈ t.occs) →
    ∃ b st', bound st v u = some (b, st') ∧ Matched cells t ν θ v u b st'

theorem subst_specific (hσ : ∀ y ∈ t.occs, σ y = .var y) (u : Tm Label ℕ) (hu : ∀ y ∈ u.occs, y ∈ t.occs) :
    u.subst σ = u := by
  induction u using Tm.induct with
  | var y => exact hσ y (hu y (mem_singleton_self y))
  | app f us ih =>
    rw [Tm.subst]
    congr 1
    induction us with
    | nil => rfl
    | cons u us ihus =>
      rw [forall_mem_cons] at ih
      rw [Tm.occs, Tm.vars, forall_mem_append] at hu
      rw [Tm.substArgs, ih.1 hu.1, ihus ih.2 hu.2]

theorem Matched.same {s : Tm Label ℕ} {b : Bool} (hB : Bound cells t ν θ st)
    (h : ∀ σ, Solves cells t θ σ → (s.subst σ = u ↔ b = true)) : Matched cells t ν θ s u b st := by
  refine ⟨θ, hB, ?_⟩
  cases b with
  | true => exact fun σ => ⟨fun hσ => ⟨hσ, (h σ hσ).2 rfl⟩, fun hσ => hσ.1⟩
  | false => exact fun σ hσ heq => Bool.false_ne_true ((h σ hσ).1 heq)

section
variable (hB : Bound cells t ν θ st)
include hB

theorem Bound.word_var {y : ℕ} (hy : y ∈ t.occs) : st.word (.var y) = .var (.num (ν y)) :=
  hB.number y hy

theorem Bound.number_iff (hν : ∀ x ∈ t.occs, ∀ y ∈ t.occs, ν x = ν y → x = y) {y : ℕ}
    (hy : y ∈ t.occs) (hu : ∀ z ∈ u.occs, z ∈ t.occs) :
    ((st.word u).number? == some (ν y)) = true ↔ Tm.var y = u := by
  rw [beq_iff_eq]
  cases u with
  | var z =>
    have hz := hu z (mem_singleton_self z)
    rw [hB.word_var hz, Tm.var.injEq]
    exact ⟨fun h => (hν z hz y hy (Option.some.inj h)).symm, fun h => congrArg (fun y => some (ν y)) h.symm⟩
  | app f us => exact ⟨nofun, nofun⟩

theorem Bound.assign {x : ℕ} (hx : x ∉ t.occs) (hfree : cells x = .free) (hθ : θ x = none) (hu : ∀ y ∈ u.occs, y ∈ t.occs) :
    Bound cells t ν (update θ x (some u)) (st.assign x u) := by
  have hword : ∀ v : Tm Label ℕ, (∀ y ∈ v.occs, y ∈ t.occs) → (st.assign x u).word v = st.word v := by
    intro v hv
    cases v with
    | var y =>
      have hyx : y ≠ x := by
        rintro rfl
        exact hx (hv y (mem_singleton_self y))
      exact update_of_ne hyx _ _
    | app f us => rfl
  refine ⟨fun y hy => ?_, fun y hy hnone => ?_, fun y v hv => ?_, ?_⟩
  · have hyx : y ≠ x := by
      rintro rfl
      exact hx hy
    exact (update_of_ne hyx _ _).trans (hB.number y hy)
  · have hyx : y ≠ x := by
      rintro rfl
      rw [update_self] at hnone
      cases hnone
    rw [update_of_ne hyx] at hnone
    exact (update_of_ne hyx _ _).trans (hB.unbound y hy hnone)
  · by_cases hyx : y = x
    · subst hyx
      rw [update_self] at hv
      cases hv
      exact ⟨hx, hfree, hu, (update_self ..).trans (hword u hu).symm⟩
    · rw [update_of_ne hyx] at hv
      obtain ⟨h1, h2, h3, h4⟩ := hB.bound y v hv
      exact ⟨h1, h2, h3, (update_of_ne hyx _ _).trans (h4.trans (hword v h3).symm)⟩
  · rw [← hB.undo]
    simp only [SubsumeState.assign, undoTrail, update_idem, update_eq_self]

end

theorem solves_update {x : ℕ} (hθ : θ x = none) :
    Solves cells t (update θ x (some u)) σ ↔ Solves cells t θ σ ∧ σ x = u := by
  constructor
  · intro h
    refine ⟨⟨h.specific, h.susp, fun y v hv => h.binding y v ?_⟩, h.binding x u (update_self ..)⟩
    have hyx : y ≠ x := by
      rintro rfl
      rw [hθ] at hv
      cases hv
    rw [update_of_ne hyx]
    exact hv
  · intro h
    refine ⟨h.1.specific, h.1.susp, fun y v hv => ?_⟩
    by_cases hyx : y = x
    · subst hyx
      rw [update_self] at hv
      cases hv
      exact h.2
    · rw [update_of_ne hyx] at hv
      exact h.1.binding y v hv

/-! ## Matching -/

variable (hunnum : Unnumbered cells) (hν : ∀ x ∈ t.occs, ∀ y ∈ t.occs, ν x = ν y → x = y)
  {bound : SubsumeState → Tm Label ℕ → Tm Label ℕ → Option (Bool × SubsumeState)}
include hunnum hν

/-- A variable of the general term. `bound` is asked about one that the specific term does not have. -/
theorem subsumeVar_run (x : ℕ) (hbound : x ∉ t.occs → Answers cells t ν bound) (hB : Bound cells t ν θ st) (hu : ∀ y ∈ u.occs, y ∈ t.occs) :
    ∃ b st', subsumeVar bound st x u = some (b, st') ∧ Matched cells t ν θ (.var x) u b st' := by
  rw [subsumeVar]
  by_cases hx : x ∈ t.occs
  · rw [hB.number x hx]
    refine ⟨_, st, rfl, .same hB fun σ hσ => ?_⟩
    rw [Tm.subst, hσ.specific x hx, hB.number_iff hν hx hu]
  · cases hθ : θ x with
    | none =>
      rw [hB.unbound x hx hθ]
      cases hcell : cells x with
      | free =>
        refine ⟨true, _, rfl, _, hB.assign hx hcell hθ hu, fun σ => ?_⟩
        rw [solves_update hθ, Tm.subst]
      | susp =>
        refine ⟨false, st, rfl, .same hB fun σ hσ => iff_of_false (fun heq => ?_) Bool.false_ne_true⟩
        rw [Tm.subst, hσ.susp x hcell] at heq
        subst heq
        exact hx (hu x (mem_singleton_self x))
      | num n =>
        have hnone := hunnum x
        rw [hcell] at hnone
        cases hnone
    | some v =>
      obtain ⟨-, -, hv, hword⟩ := hB.bound x v hθ
      rw [hword]
      cases v with
      | var y =>
        have hy := hv y (mem_singleton_self y)
        rw [hB.word_var hy]
        refine ⟨_, st, rfl, .same hB fun σ hσ => ?_⟩
        rw [Tm.subst, hσ.binding x _ hθ, hB.number_iff hν hy hu]
      | app f vs =>
        obtain ⟨b, st', hrun, θ', hB', hmatch⟩ := hbound hx hB (.app f vs) u hv hu
        refine ⟨b, st', hrun, θ', hB', ?_⟩
        have hsub : ∀ σ, Solves cells t θ σ → (Tm.var x).subst σ = (Tm.app f vs).subst σ := by
          intro σ hσ
          rw [subst_specific hσ.specific _ hv]
          exact hσ.binding x _ hθ
        cases b with
        | true => exact fun σ => (hmatch σ).trans (and_congr_right fun hσ => by rw [hsub σ hσ])
        | false => exact fun σ hσ => by rw [hsub σ hσ]; exact hmatch σ hσ

theorem subsumeWith_run (s : Tm Label ℕ) (hbound : ∀ x ∈ s.occs, x ∉ t.occs → Answers cells t ν bound) :
    ∀ {θ st}, Bound cells t ν θ st → ∀ u : Tm Label ℕ, (∀ y ∈ u.occs, y ∈ t.occs) →
      ∃ b st', subsumeWith bound st s u = some (b, st') ∧ Matched cells t ν θ s u b st' := by
  induction s using Tm.induct with
  | var x =>
    intro θ st hB u hu
    rw [subsumeWith]
    exact subsumeVar_run hunnum hν x (hbound x (mem_singleton_self x)) hB hu
  | app f ss ih =>
    intro θ st hB u hu
    cases u with
    | var y => exact ⟨false, st, by rw [subsumeWith], .same hB fun σ _ => iff_of_false nofun Bool.false_ne_true⟩
    | app g us =>
      rw [subsumeWith]
      by_cases hfg : f = g
      · subst hfg
        rw [if_pos rfl]
        have hargs : ∀ {θ st}, Bound cells t ν θ st → ∀ us : List (Tm Label ℕ), (∀ y ∈ Tm.vars us, y ∈ t.occs) →
            ∃ b st', subsumeArgs bound st ss us = some (b, st') ∧ ∃ θ', Bound cells t ν θ' st' ∧
              if b then ∀ σ, Solves cells t θ' σ ↔ Solves cells t θ σ ∧ Tm.substArgs σ ss = us
              else ∀ σ, Solves cells t θ σ → Tm.substArgs σ ss ≠ us := by
          clear hB hu
          rw [Tm.occs] at hbound
          induction ss with
          | nil =>
            intro θ st hB us _
            cases us with
            | nil => exact ⟨true, st, rfl, θ, hB, fun σ => (and_iff_left rfl).symm⟩
            | cons u us => exact ⟨false, st, rfl, θ, hB, fun σ _ => nofun⟩
          | cons s ss ihss =>
            intro θ st hB us hus
            rw [forall_mem_cons] at ih
            rw [Tm.vars, forall_mem_append] at hbound
            cases us with
            | nil => exact ⟨false, st, rfl, θ, hB, fun σ _ => nofun⟩
            | cons u us =>
              rw [Tm.vars, forall_mem_append] at hus
              obtain ⟨b, st1, hrun, θ1, hB1, hmatch⟩ := ih.1 hbound.1 hB u hus.1
              rw [subsumeArgs, hrun]
              cases b with
              | false =>
                refine ⟨false, st1, rfl, θ1, hB1, fun σ hσ heq => hmatch σ hσ ?_⟩
                rw [Tm.substArgs] at heq
                exact (List.cons.inj heq).1
              | true =>
                obtain ⟨c, st2, hrun2, θ2, hB2, hmatch2⟩ := ihss ih.2 hbound.2 hB1 us hus.2
                refine ⟨c, st2, hrun2, θ2, hB2, ?_⟩
                -- the solutions after the first argument are the ones that match it
                cases c with
                | true =>
                  intro σ
                  rw [hmatch2 σ, hmatch σ, Tm.substArgs, List.cons.injEq, and_assoc]
                | false =>
                  intro σ hσ heq
                  rw [Tm.substArgs, List.cons.injEq] at heq
                  exact hmatch2 σ ((hmatch σ).2 ⟨hσ, heq.1⟩) heq.2
        obtain ⟨b, st', hrun, θ', hB', hmatch⟩ := hargs hB us hu
        refine ⟨b, st', hrun, θ', hB', ?_⟩
        have heq : ∀ σ, (Tm.app f ss).subst σ = .app f us ↔ Tm.substArgs σ ss = us := by
          intro σ
          rw [Tm.subst, Tm.app.injEq, and_iff_right rfl]
        cases b with
        | true => exact fun σ => (hmatch σ).trans (and_congr_right fun _ => (heq σ).symm)
        | false => exact fun σ hσ h => hmatch σ hσ ((heq σ).1 h)
      · rw [if_neg hfg]
        refine ⟨false, st, rfl, .same hB fun σ _ => iff_of_false (fun h => ?_) Bool.false_ne_true⟩
        rw [Tm.subst, Tm.app.injEq] at h
        exact hfg h.1

theorem answers_succ (fuel : ℕ) : Answers cells t ν (termSubsumeNumberedterm (fuel + 1)) := by
  intro θ st hB v u hv hu
  exact subsumeWith_run hunnum hν v (fun x hx hnot => absurd (hv x hx) hnot) hB u hu

theorem termSubsumeNumberedterm_run (fuel : ℕ) (s : Tm Label ℕ) (hB : Bound cells t ν θ st) :
    ∃ b st', termSubsumeNumberedterm (fuel + 2) st s t = some (b, st') ∧ Matched cells t ν θ s t b st' :=
  subsumeWith_run hunnum hν s (fun _ _ _ => answers_succ hunnum hν fuel) hB t fun _ hy => hy

end

/-! ## What the test finds out -/

section
variable {cells : ℕ → VarCell} {s t : HeapTerm}

theorem undoTrail_numbered (trail : List (ℕ × VarCell)) (c : ℕ → VarCell) :
    undoTrail (trail.map fun e => (e.1, Cell.var e.2)) (fun x => .var (c x)) =
      fun x => .var (undoTrailing trail c x) := by
  induction trail generalizing c with
  | nil => rfl
  | cons e trail ih =>
    rw [map_cons, undoTrail, undoTrailing, ← ih]
    congr 1
    funext x
    by_cases hx : x = e.1
    · subst hx
      rw [update_self, update_self]
    · rw [update_of_ne hx, update_of_ne hx]

theorem bound_numbered (hunnum : Unnumbered cells) (t : HeapTerm) :
    Bound cells t.tree (firsts [] t.tree.occs).idxOf (fun _ => none)
      (numberedState (VariantTest.numberVarTermOpt ⟨cells, 0, []⟩ t)) := by
  have h := foldl_meet_numbered ⟨cells, 0, []⟩ t.tree.occs [] _ (Numbered.refl _)
  rw [filter_eq_self.2 fun x _ => decide_eq_true (hunnum x), ← VariantTest.numberVarTermOpt_eq] at h
  refine ⟨fun y hy => ?_, fun x hx _ => ?_, fun x u hu => ?_, ?_⟩
  · have hnumber := h.number y (mem_firsts.2 (.inr hy))
    rw [Nat.zero_add] at hnumber
    exact congrArg Cell.var hnumber
  · exact congrArg Cell.var (h.others x fun hmem => hx ((mem_firsts.1 hmem).resolve_left not_mem_nil))
  · cases hu
  · rw [numberedState, undoTrail_numbered, h.undo]
    rfl

/-- The general term `s` matches the specific term `t`: a substitution that leaves the variables of `t` and all suspension
variables alone makes them equal. -/
def Subsumes (cells : ℕ → VarCell) (s t : HeapTerm) : Prop :=
  ∃ σ : ℕ → Tm Label ℕ, (∀ y ∈ t.tree.occs, σ y = .var y) ∧ (∀ x, cells x = .susp → σ x = .var x) ∧
    s.tree.subst σ = t.tree

theorem exists_solves {T : Tm Label ℕ} {ν : ℕ → ℕ} {θ : ℕ → Option (Tm Label ℕ)} {st : SubsumeState}
    (hB : Bound cells T ν θ st) : ∃ σ, Solves cells T θ σ := by
  refine ⟨fun x => (θ x).getD (.var x), fun y hy => ?_, fun x hx => ?_, fun x u hu => ?_⟩
  · cases hθ : θ y with
    | none => rfl
    | some u => exact absurd hy (hB.bound y u hθ).1
  · cases hθ : θ x with
    | none => rfl
    | some u =>
      have hfree := (hB.bound x u hθ).2.1
      rw [hx] at hfree
      cases hfree
  · rw [hu]
    rfl

/-- The test succeeds exactly when the general term matches the specific one, and leaves the cells as they were. -/
theorem termSubsumeTerm_iff (cells : ℕ → VarCell) (hunnum : Unnumbered cells) (s t : HeapTerm) :
    ∃ b, termSubsumeTerm cells s t = some (b, fun x => .var (cells x)) ∧ (b = true ↔ Subsumes cells s t) := by
  have hinj : ∀ x ∈ t.tree.occs, ∀ y ∈ t.tree.occs,
      (firsts [] t.tree.occs).idxOf x = (firsts [] t.tree.occs).idxOf y → x = y :=
    fun x hx y _ heq => (idxOf_inj (mem_firsts.2 (.inr hx))).1 heq
  obtain ⟨b, st, hrun, θ, hB, hmatch⟩ :=
    termSubsumeNumberedterm_run hunnum hinj s.tree.occs.length s.tree (bound_numbered hunnum t)
  refine ⟨b, ?_, ?_⟩
  · simp only [termSubsumeTerm, hrun, hB.undo]
  · have hsolves : ∀ σ, Solves cells t.tree (fun _ => none) σ ↔
        (∀ y ∈ t.tree.occs, σ y = .var y) ∧ ∀ x, cells x = .susp → σ x = .var x :=
      fun σ => ⟨fun h => ⟨h.specific, h.susp⟩, fun h => ⟨h.1, h.2, nofun⟩⟩
    cases b with
    | true =>
      obtain ⟨σ, hσ⟩ := exists_solves hB
      obtain ⟨hspec, heq⟩ := (hmatch σ).1 hσ
      obtain ⟨h1, h2⟩ := (hsolves σ).1 hspec
      exact iff_of_true rfl ⟨σ, h1, h2, heq⟩
    | false =>
      refine iff_of_false Bool.false_ne_true fun ⟨σ, h1, h2, heq⟩ => ?_
      exact hmatch σ ((hsolves σ).2 ⟨h1, h2⟩) heq

theorem termSubsumeTerm_iff_pair :
    ∃ b, termSubsumeTerm (fun _ => .free) (pair 0 0) (pair 1 1) = some (b, fun _ => .var .free) ∧
      (b = true ↔ Subsumes (fun _ => .free) (pair 0 0) (pair 1 1)) :=
  termSubsumeTerm_iff (fun _ => .free) (fun _ => rfl) (pair 0 0) (pair 1 1)

/-- A suspension variable is not bound to an atom. -/
theorem termSubsumeTerm_susp : ¬ ∀ (cells : ℕ → VarCell) (s t : HeapTerm), Unnumbered cells →
      ∃ b, termSubsumeTerm cells s t = some (b, fun x => .var (cells x)) ∧
        (b = true ↔ ∃ σ : ℕ → Tm Label ℕ, (∀ y ∈ t.tree.occs, σ y = .var y) ∧ s.tree.subst σ = t.tree) := by
  intro h
  obtain ⟨b, hrun, hiff⟩ := h (fun _ => .susp) (.var 0) (.atm 8) fun _ => rfl
  have hb : b = false := by
    have hfalse : (termSubsumeTerm (fun _ => .susp) (.var 0) (.atm 8)).map (·.1) = some false := by decide
    rw [hrun] at hfalse
    exact Option.some.inj hfalse
  have htrue := hiff.2 ⟨fun _ => .app (.atm 8) [], nofun, rfl⟩
  rw [hb] at htrue
  cases htrue

end

end SubsumeTest

end Picat
