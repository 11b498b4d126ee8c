import Picat.Tabling.Identical

/-!
# The variant test

`b_VARIANT_cc` numbers the variables of the first term, then those of the second one from 0 again, compares the two, and
undoes the numbers with the trail. A variable that both terms share has its number from the first one when the second
one is reached, and keeps it.

* `bVariantCc_iff` : for which terms the test is right.
-/

namespace Picat

open Variants Function List

namespace VariantTest

/-! ## The routines -/

/-- The content of a variable's cell: a reference to itself, the word of a suspension variable, or a number. -/
inductive VarCell where
  | free
  | susp
  | num (n : ℕ)
  deriving DecidableEq

/-- The cells, `global_var_num`, and the part of the trail from `trail_top0` on, the last entry first. -/
structure NumberState where
  cells : ℕ → VarCell
  globalVarNum : ℕ
  trail : List (ℕ × VarCell)

/-- `ASSIGN_TRAIL_VALUE`, or `PUSHTRAILC_ATOMIC` and the assignment, of the next number. -/
def NumberState.assign (st : NumberState) (x : ℕ) : NumberState where
  cells := update st.cells x (.num st.globalVarNum)
  globalVarNum := st.globalVarNum + 1
  trail := (x, st.cells x) :: st.trail

/-- A variable that `numberVarTermOpt` meets. -/
def NumberState.meet (st : NumberState) (x : ℕ) : NumberState :=
  match st.cells x with
  | .num _ => st
  | _ => st.assign x

mutual

def numberVarTermOpt (st : NumberState) : HeapTerm → NumberState
  | .var x => st.meet x
  | .atm _ => st
  | .lst car cdr => numberVarTermOpt (numberVarTermOpt st car) cdr
  | .str _ arg args => numberVarArgs (numberVarTermOpt st arg) args
  | .tab _ => st

def numberVarArgs (st : NumberState) : List HeapTerm → NumberState
  | [] => st
  | t :: ts => numberVarArgs (numberVarTermOpt st t) ts

end

def VarCell.number? : VarCell → Option ℕ
  | num n => some n
  | _ => none

/-- `unifyNumberedTerms` on a variable `x`; a free one is numbered at once. Inside of a term a reference leads to the word
of a suspension variable, to which nothing compares equal. -/
def unifyVar (st : NumberState) (x : ℕ) (t2 : Tm Label ℕ) : Bool × NumberState :=
  let number2 : Option ℕ := match t2 with
    | .var y => (st.cells y).number?
    | .app _ _ => none
  match st.cells x with
  | .num n => (number2 == some n, st)
  | .susp => (false, st)
  | .free => (number2 == some st.globalVarNum, st.assign x)

mutual

/-- `unifyNumberedTerms`, on what the terms denote: it reads a term of the table area as it reads one on the heap. -/
def unifyNumberedTerms (st : NumberState) : Tm Label ℕ → Tm Label ℕ → Bool × NumberState
  | .var x, t2 => unifyVar st x t2
  | .app _ _, .var _ => (false, st)
  | .app f args1, .app g args2 => if f = g then unifyNumberedArgs st args1 args2 else (false, st)

def unifyNumberedArgs (st : NumberState) : List (Tm Label ℕ) → List (Tm Label ℕ) → Bool × NumberState
  | [], [] => (true, st)
  | t :: ts, u :: us =>
    match unifyNumberedTerms st t u with
    | (true, st) => unifyNumberedArgs st ts us
    | (false, st) => (false, st)
  | _, _ => (false, st)

end

def atmWord (t : HeapTerm) : Option ℕ :=
  match t.tree with
  | .app (.atm w) _ => some w
  | _ => none

/-- The term itself is a suspension variable, of which `DEREF` gives the tagged word. -/
def IsSusp (cells : ℕ → VarCell) : HeapTerm → Prop
  | .var x => cells x = .susp
  | _ => False

instance (cells : ℕ → VarCell) (t : HeapTerm) : Decidable (IsSusp cells t) := by
  cases t <;> unfold IsSusp <;> infer_instance

def undoTrailing : List (ℕ × VarCell) → (ℕ → VarCell) → ℕ → VarCell
  | [], cells => cells
  | (x, old) :: trail, cells => undoTrailing trail (update cells x old)

/-- `b_VARIANT_cc`, with the cells that it leaves. The word of a suspension variable is neither a list nor a structure,
and is no number. -/
def bVariantCc (cells : ℕ → VarCell) (op1 op2 : HeapTerm) : Bool × (ℕ → VarCell) :=
  if (atmWord op1).isSome || (atmWord op2).isSome then (atmWord op1 == atmWord op2, cells)
  else
    let st1 := numberVarTermOpt ⟨cells, 0, []⟩ op1
    let st2 := numberVarTermOpt { st1 with globalVarNum := 0 } op2
    let (i, st3) :=
      if IsSusp cells op1 ∨ IsSusp cells op2 then (false, st2) else unifyNumberedTerms st2 op1.tree op2.tree
    (i, undoTrailing st3.trail st3.cells)

/-! ## Numbering -/

section
variable {st st₀ : NumberState} {cells : ℕ → VarCell} {vs xs : List ℕ} {x y : ℕ} {s t : HeapTerm}

theorem numberVarTermOpt_eq (st : NumberState) (t : HeapTerm) :
    numberVarTermOpt st t = t.tree.occs.foldl NumberState.meet st := by
  induction t using HeapTerm.induct generalizing st with
  | var x => rfl
  | atm w => rfl
  | lst car cdr ihcar ihcdr =>
    rw [numberVarTermOpt, ihcar, ihcdr, ← foldl_append]
    simp only [HeapTerm.tree, Tm.occs, Tm.vars, append_nil]
  | str sym arg args iharg ihargs =>
    have hargs : ∀ st, numberVarArgs st args = (Tm.vars (HeapTerm.trees args)).foldl NumberState.meet st := by
      induction args with
      | nil => exact fun st => rfl
      | cons t ts ih =>
        rw [forall_mem_cons] at ihargs
        intro st
        rw [numberVarArgs, ihargs.1, ih ihargs.2, ← foldl_append]
        rfl
    rw [numberVarTermOpt, iharg, hargs, ← foldl_append]
    rfl
  | tab t => rw [numberVarTermOpt, HeapTerm.tree, t.isSealed.occs_eq_nil t.ground, foldl_nil]

/-- The variables `vs` have been numbered since `st₀`, in this order, and none that had a number. -/
structure Numbered (st₀ : NumberState) (vs : List ℕ) (st : NumberState) : Prop where
  nodup : vs.Nodup
  fresh : ∀ x ∈ vs, (st₀.cells x).number? = none
  number : ∀ x ∈ vs, st.cells x = .num (st₀.globalVarNum + vs.idxOf x)
  others : ∀ x, x ∉ vs → st.cells x = st₀.cells x
  next : st.globalVarNum = st₀.globalVarNum + vs.length
  undo : undoTrailing st.trail st.cells = undoTrailing st₀.trail st₀.cells

theorem Numbered.refl (st : NumberState) : Numbered st [] st where
  nodup := nodup_nil
  fresh := fun _ hx => absurd hx not_mem_nil
  number := fun _ hx => absurd hx not_mem_nil
  others := fun _ _ => rfl
  next := rfl
  undo := rfl

theorem NumberState.meet_of_numbered {n : ℕ} (h : st.cells x = .num n) : st.meet x = st := by
  rw [NumberState.meet, h]

theorem NumberState.meet_of_fresh (h : (st.cells x).number? = none) : st.meet x = st.assign x := by
  unfold NumberState.meet
  cases hx : st.cells x with
  | num n => rw [hx] at h; contradiction
  | free => rfl
  | susp => rfl

theorem NumberState.undo_assign (st : NumberState) (x : ℕ) :
    undoTrailing (st.assign x).trail (st.assign x).cells = undoTrailing st.trail st.cells := by
  simp only [NumberState.assign, undoTrailing, update_idem, update_eq_self]

theorem Numbered.assign (h : Numbered st₀ vs st) (hx : x ∉ vs) (hfresh : (st₀.cells x).number? = none) :
    Numbered st₀ (vs ++ [x]) (st.assign x) where
  nodup := by
    rw [nodup_append_comm, singleton_append]
    exact nodup_cons.2 ⟨hx, h.nodup⟩
  fresh := by
    intro y hy
    rcases mem_append.1 hy with hy | hy
    · exact h.fresh y hy
    · rwa [mem_singleton.1 hy]
  number := by
    intro y hy
    by_cases hyx : y = x
    · subst hyx
      simp only [NumberState.assign, update_self, h.next, idxOf_append_of_notMem hx, idxOf_cons_self, Nat.add_zero]
    · have hyvs : y ∈ vs := by simpa [hyx] using hy
      simp only [NumberState.assign, update_of_ne hyx, h.number y hyvs, idxOf_append_of_mem hyvs]
  others := by
    intro y hy
    simp only [mem_append, mem_singleton, not_or] at hy
    simp only [NumberState.assign, update_of_ne hy.2, h.others y hy.1]
  next := by
    simp only [NumberState.assign, h.next, length_append, length_singleton, Nat.add_assoc]
  undo := (st.undo_assign x).trans h.undo

/-- Numbering a sequence numbers those of its variables that had no number, in the order in which they occur first. -/
theorem foldl_meet_numbered (st₀ : NumberState) (xs : List ℕ) : ∀ (vs : List ℕ) (st : NumberState), Numbered st₀ vs st →
    Numbered st₀ (firsts vs (xs.filter fun x => (st₀.cells x).number? = none)) (xs.foldl NumberState.meet st) := by
  induction xs with
  | nil => exact fun vs st h => h
  | cons x xs ih =>
    intro vs st h
    rw [foldl_cons]
    by_cases hfresh : (st₀.cells x).number? = none
    · rw [filter_cons_of_pos (by simpa using hfresh), firsts]
      by_cases hx : x ∈ vs
      · rw [if_pos hx, NumberState.meet_of_numbered (h.number x hx)]
        exact ih vs st h
      · rw [if_neg hx, NumberState.meet_of_fresh (by rwa [h.others x hx])]
        exact ih _ _ (h.assign hx hfresh)
    · rw [filter_cons_of_neg (by simpa using hfresh)]
      have hx : x ∉ vs := fun hx => hfresh (h.fresh x hx)
      have hmeet : st.meet x = st := by
        cases hc : st₀.cells x with
        | num n => exact NumberState.meet_of_numbered ((h.others x hx).trans hc)
        | free => exact absurd (by rw [hc]; rfl) hfresh
        | susp => exact absurd (by rw [hc]; rfl) hfresh
      rw [hmeet]
      exact ih vs st h

end

/-! ## The two passes -/

/-- The variables of the second term that the first one does not have, in the order in which they occur first. -/
def unshared (s t : HeapTerm) : List ℕ := firsts [] (t.tree.occs.filter fun y => y ∉ s.tree.occs)

/-- The number at a variable: its place by first occurrence in the first term, or among the variables that only the second
one has. -/
def secondNumber (s t : HeapTerm) (y : ℕ) : ℕ :=
  if y ∈ s.tree.occs then (firsts [] s.tree.occs).idxOf y else (unshared s t).idxOf y

section
variable {cells : ℕ → VarCell} {s t : HeapTerm} {x y : ℕ}

/-- No variable has a number: the test and every other use of numbers take them back. -/
def Unnumbered (cells : ℕ → VarCell) : Prop := ∀ x, (cells x).number? = none

theorem passes_spec (h : Unnumbered cells) (s t : HeapTerm) : (∀ y, y ∈ s.tree.occs ∨ y ∈ t.tree.occs →
      (numberVarTermOpt { numberVarTermOpt ⟨cells, 0, []⟩ s with globalVarNum := 0 } t).cells y =
        .num (secondNumber s t y)) ∧
      undoTrailing (numberVarTermOpt { numberVarTermOpt ⟨cells, 0, []⟩ s with globalVarNum := 0 } t).trail
        (numberVarTermOpt { numberVarTermOpt ⟨cells, 0, []⟩ s with globalVarNum := 0 } t).cells = cells := by
  simp only [numberVarTermOpt_eq]
  have h1 := foldl_meet_numbered ⟨cells, 0, []⟩ s.tree.occs [] _ (Numbered.refl _)
  generalize s.tree.occs.foldl NumberState.meet ⟨cells, 0, []⟩ = st1 at h1 ⊢
  rw [filter_eq_self.2 fun x _ => decide_eq_true (h x)] at h1
  -- after the first pass the variables with a number are those of the first term
  have hmem : ∀ y, (st1.cells y).number? = none ↔ y ∉ s.tree.occs := by
    intro y
    by_cases hy : y ∈ s.tree.occs
    · rw [h1.number y (mem_firsts.2 (.inr hy))]
      simp [VarCell.number?, hy]
    · rw [h1.others y (by simpa [mem_firsts] using hy)]
      simp [h y, hy]
  have h2 := foldl_meet_numbered { st1 with globalVarNum := 0 } t.tree.occs [] _ (Numbered.refl _)
  simp only [hmem] at h2
  refine ⟨fun y hy => ?_, h2.undo.trans h1.undo⟩
  unfold secondNumber
  by_cases hs : y ∈ s.tree.occs
  · have hout : y ∉ unshared s t := by
      intro hin
      have hfilter := (mem_firsts.1 hin).resolve_left not_mem_nil
      simp [hs] at hfilter
    rw [if_pos hs, h2.others y hout]
    simpa using h1.number y (mem_firsts.2 (.inr hs))
  · have hin : y ∈ unshared s t := mem_firsts.2 (.inr (mem_filter.2 ⟨hy.resolve_left hs, by simpa using hs⟩))
    rw [if_neg hs, h2.number y hin, Nat.zero_add]
    rfl

end

section
variable {st : NumberState} {ν : ℕ → ℕ}

/-- Where all variables have their numbers, the comparison is that of the numbered terms, and changes nothing. -/
theorem unifyNumberedTerms_spec (t : Tm Label ℕ) : ∀ u : Tm Label ℕ, (∀ x ∈ t.occs, st.cells x = .num (ν x)) →
    (∀ x ∈ u.occs, st.cells x = .num (ν x)) →
    ∃ b, unifyNumberedTerms st t u = (b, st) ∧ (b = true ↔ t.rename ν = u.rename ν) := by
  induction t using Tm.induct with
  | var x =>
    intro u ht hu
    have hx := ht x (mem_singleton_self x)
    cases u with
    | var y =>
      have hy := hu y (mem_singleton_self y)
      refine ⟨some (ν y) == some (ν x), by simp [unifyNumberedTerms, unifyVar, hx, hy, VarCell.number?], ?_⟩
      simp only [beq_iff_eq, Option.some.injEq, Tm.rename, Tm.var.injEq]
      exact eq_comm
    | app g us =>
      refine ⟨false, by simp [unifyNumberedTerms, unifyVar, hx], ?_⟩
      simp [Tm.rename]
  | app f ts ih =>
    intro u ht hu
    cases u with
    | var y => exact ⟨false, by simp [unifyNumberedTerms], by simp [Tm.rename]⟩
    | app g us =>
      have hargs : ∀ us : List (Tm Label ℕ), (∀ x ∈ Tm.vars us, st.cells x = .num (ν x)) →
          ∃ b, unifyNumberedArgs st ts us = (b, st) ∧ (b = true ↔ Tm.mapVars ν ts = Tm.mapVars ν us) := by
        clear hu
        induction ts with
        | nil =>
          intro us _
          cases us with
          | nil => exact ⟨true, rfl, iff_of_true rfl rfl⟩
          | cons u us => exact ⟨false, rfl, by simp [Tm.mapVars]⟩
        | cons t ts ihts =>
          intro us hus
          rw [forall_mem_cons] at ih
          rw [Tm.occs, Tm.vars, forall_mem_append] at ht
          cases us with
          | nil => exact ⟨false, rfl, by simp [Tm.mapVars]⟩
          | cons u us =>
            rw [Tm.vars, forall_mem_append] at hus
            obtain ⟨b, hb, hiff⟩ := ih.1 u ht.1 hus.1
            obtain ⟨c, hc, hiff'⟩ := ihts ih.2 ht.2 us hus.2
            cases b with
            | true =>
              refine ⟨c, by simp only [unifyNumberedArgs, hb, hc], ?_⟩
              simp only [Tm.mapVars, List.cons.injEq, ← hiff, ← hiff', true_and]
            | false =>
              refine ⟨false, by simp only [unifyNumberedArgs, hb], ?_⟩
              simp only [Tm.mapVars, List.cons.injEq, ← hiff, Bool.false_eq_true, false_and]
      obtain ⟨b, hb, hiff⟩ := hargs us hu
      by_cases hfg : f = g
      · exact ⟨b, by simp only [unifyNumberedTerms, if_pos hfg, hb], by
          simp only [hiff, Tm.rename, Tm.app.injEq, hfg, true_and]⟩
      · exact ⟨false, by simp only [unifyNumberedTerms, if_neg hfg], by simp [Tm.rename, hfg]⟩

end

/-! ## When the test is right -/

section
variable {cells : ℕ → VarCell} {s t : HeapTerm} {w : ℕ}

theorem atmWord_eq_some : atmWord t = some w ↔ t.tree = .app (.atm w) [] := by
  have hargs : ∀ v args, t.tree = .app (.atm v) args → args = [] := by
    intro v args h
    cases t with
    | tab t =>
      obtain ⟨t, hs, hg⟩ := t
      cases t <;> simp_all [HeapTerm.tree, TabledTerm.tree]
    | _ => simp_all [HeapTerm.tree]
  unfold atmWord
  split
  · next v args h =>
      rw [h, hargs v args h]
      simp
  · next h =>
      refine iff_of_false (by simp) fun heq => h w [] heq

theorem atmWord_eq_iff (ν : ℕ → ℕ) (h : (atmWord s).isSome || (atmWord t).isSome) :
    (atmWord s == atmWord t) = true ↔ s.tree.rename ν = t.tree.rename ν := by
  have hatm : ∀ (u : Tm Label ℕ) (w : ℕ), u.rename ν = .app (.atm w) [] ↔ u = .app (.atm w) [] := by
    intro u w
    cases u with
    | var x => simp [Tm.rename]
    | app f args => cases args <;> simp [Tm.rename, Tm.mapVars]
  rw [Bool.or_eq_true, Option.isSome_iff_exists, Option.isSome_iff_exists] at h
  rw [beq_iff_eq]
  rcases h with ⟨w, hw⟩ | ⟨w, hw⟩
  · rw [hw, eq_comm, atmWord_eq_some, atmWord_eq_some.1 hw, (hatm _ w).2 rfl, eq_comm (b := t.tree.rename ν), hatm]
  · rw [hw, atmWord_eq_some, atmWord_eq_some.1 hw, (hatm _ w).2 rfl, hatm]

/-- The test compares the terms with the numbers that their variables have after both passes; it rejects a suspension
variable, and it leaves the cells as they were. -/
theorem bVariantCc_spec (h : Unnumbered cells) (s t : HeapTerm) : (bVariantCc cells s t).2 = cells ∧
      ((bVariantCc cells s t).1 = true ↔
        ¬ (IsSusp cells s ∨ IsSusp cells t) ∧ s.tree.rename (secondNumber s t) = t.tree.rename (secondNumber s t)) := by
  unfold bVariantCc
  by_cases hatm : ((atmWord s).isSome || (atmWord t).isSome) = true
  · rw [if_pos hatm]
    refine ⟨rfl, ?_⟩
    by_cases hsusp : IsSusp cells s ∨ IsSusp cells t
    · -- the word of the variable is not that of the atom
      refine iff_of_false (fun heq => ?_) fun hboth => hboth.1 hsusp
      have hvar : ∀ u, IsSusp cells u → atmWord u = none := by
        intro u hu
        cases u <;> first | rfl | exact absurd hu not_false
      rw [beq_iff_eq] at heq
      rcases hsusp with hs | ht
      · rw [← heq, hvar s hs] at hatm
        contradiction
      · rw [heq, hvar t ht] at hatm
        contradiction
    · simp only [atmWord_eq_iff (secondNumber s t) hatm, hsusp, not_false_eq_true, true_and]
  · rw [if_neg hatm]
    obtain ⟨hnumber, hundo⟩ := passes_spec h s t
    by_cases hsusp : IsSusp cells s ∨ IsSusp cells t
    · simp only [if_pos hsusp]
      exact ⟨hundo, iff_of_false Bool.false_ne_true fun hboth => hboth.1 hsusp⟩
    · obtain ⟨b, hb, hiff⟩ := unifyNumberedTerms_spec s.tree t.tree
        (fun x hx => hnumber x (.inl hx)) fun x hx => hnumber x (.inr hx)
      simp only [if_neg hsusp, hb]
      exact ⟨hundo, by simp only [hiff, hsusp, not_false_eq_true, true_and]⟩

/-- The variables of `t` have their places in the order of first occurrence in `t`: a variable that `s` has too has the
same place in both terms, and none that `s` does not have comes after it. -/
structure SamePlaces (s t : HeapTerm) : Prop where
  shared : ∀ y ∈ t.tree.occs, y ∈ s.tree.occs → (firsts [] s.tree.occs).idxOf y = (firsts [] t.tree.occs).idxOf y
  unshared : ∀ y ∈ t.tree.occs, y ∉ s.tree.occs → (unshared s t).idxOf y = (firsts [] t.tree.occs).idxOf y

/-- `t` becomes `s` when each variable that `s` does not have is replaced by the variable of `s` with its place among
them, and the shared ones are left alone. -/
def Coincides (s t : HeapTerm) : Prop :=
  ∃ σ : ℕ → ℕ, (∀ y ∈ t.tree.occs, y ∈ s.tree.occs → σ y = y) ∧
    (∀ y ∈ t.tree.occs, y ∉ s.tree.occs → (firsts [] s.tree.occs)[(unshared s t).idxOf y]? = some (σ y)) ∧
    t.tree.rename σ = s.tree

def VariantRight (cells : ℕ → VarCell) (s t : HeapTerm) : Prop :=
  if IsSusp cells s ∨ IsSusp cells t then ¬ ((∃ x, s.tree = .var x) ∧ ∃ y, t.tree = .var y)
  else SamePlaces s t ∨ (¬ Variant [s.tree] [t.tree] ∧ ¬ Coincides s t)

theorem samePlaces_iff : SamePlaces s t ↔ ∀ y ∈ t.tree.occs, secondNumber s t y = (firsts [] t.tree.occs).idxOf y := by
  constructor
  · intro h y hy
    unfold secondNumber
    split
    · next hs => exact h.shared y hy hs
    · next hs => exact h.unshared y hy hs
  · intro h
    refine ⟨fun y hy hs => ?_, fun y hy hs => ?_⟩
    · rw [← h y hy, secondNumber, if_pos hs]
    · rw [← h y hy, secondNumber, if_neg hs]

theorem rename_first (s t : HeapTerm) :
    s.tree.rename (secondNumber s t) = s.tree.rename (firsts [] s.tree.occs).idxOf :=
  Tm.rename_congr _ fun _ hx => if_pos hx

theorem variant_iff_rename : Variant [s.tree] [t.tree] ↔
      s.tree.rename (firsts [] s.tree.occs).idxOf = t.tree.rename (firsts [] t.tree.occs).idxOf := by
  rw [variant_iff_canon]
  simp only [canon, Tm.vars, append_nil, Tm.mapVars, List.cons.injEq, and_true]

theorem coincides_iff : Coincides s t ↔ s.tree.rename (secondNumber s t) = t.tree.rename (secondNumber s t) := by
  rw [rename_first]
  constructor
  · intro hp
    obtain ⟨σ, hshared, hunshared, hs⟩ := hp
    rw [← hs, Tm.rename_rename, hs]
    apply Tm.rename_congr _
    intro y hy
    unfold secondNumber
    by_cases hys : y ∈ s.tree.occs
    · rw [if_pos hys, comp_apply, hshared y hy hys]
    · obtain ⟨hlt, hget⟩ := List.getElem?_eq_some_iff.1 (hunshared y hy hys)
      rw [if_neg hys, comp_apply, ← hget]
      exact List.Nodup.idxOf_getElem (nodup_firsts nodup_nil) _ hlt
  · intro h
    -- every number is the place of a variable of `s`
    have hlt : ∀ y ∈ t.tree.occs, secondNumber s t y < (firsts [] s.tree.occs).length := by
      intro y hy
      have hmem : secondNumber s t y ∈ (s.tree.rename (firsts [] s.tree.occs).idxOf).occs := by
        rw [h, Tm.occs_rename]
        exact mem_map_of_mem hy
      rw [Tm.occs_rename, mem_map] at hmem
      obtain ⟨x, hx, hxy⟩ := hmem
      rw [← hxy]
      exact idxOf_lt_length_iff.2 (mem_firsts.2 (.inr hx))
    refine ⟨fun y => (firsts [] s.tree.occs).getI (secondNumber s t y), fun y hy hys => ?_, fun y hy hys => ?_, ?_⟩
    · simp only [secondNumber, if_pos hys]
      exact getI_idxOf (mem_firsts.2 (.inr hys))
    · have hlty := hlt y hy
      simp only [secondNumber, if_neg hys] at hlty ⊢
      rw [getI_eq_getElem _ hlty, List.getElem?_eq_getElem]
    · have hback : (s.tree.rename (firsts [] s.tree.occs).idxOf).rename (firsts [] s.tree.occs).getI = s.tree := by
        rw [Tm.rename_rename]
        refine (Tm.rename_congr _ fun x hx => ?_).trans (Tm.rename_id _)
        exact getI_idxOf (mem_firsts.2 (.inr hx))
      calc t.tree.rename (fun y => (firsts [] s.tree.occs).getI (secondNumber s t y))
          = (t.tree.rename (secondNumber s t)).rename (firsts [] s.tree.occs).getI := by
            rw [Tm.rename_rename]
            rfl
        _ = s.tree := by rw [← h, hback]

theorem variant_var {x : ℕ} {u : Tm Label ℕ} : Variant [Tm.var x] [u] ↔ ∃ y, u = .var y := by
  constructor
  · intro hp
    obtain ⟨σ, -, h⟩ := hp
    exact ⟨σ x, (List.cons.inj h).1.symm⟩
  · intro hp
    obtain ⟨y, rfl⟩ := hp
    refine ⟨fun _ => y, ?_, rfl⟩
    intro a ha b hb _
    simp only [Tm.vars, Tm.occs, append_nil, mem_singleton, Set.mem_ofPred_eq] at ha hb
    rw [ha, hb]

theorem variant_to_var {y : ℕ} {u : Tm Label ℕ} (h : Variant [u] [Tm.var y]) : ∃ x, u = .var x := by
  obtain ⟨σ, -, h⟩ := h
  cases u with
  | var x => exact ⟨x, rfl⟩
  | app f args => cases (List.cons.inj h).1

/-- The test succeeds exactly on variants, and undoes its bindings, if and only if the terms are right for it. -/
theorem bVariantCc_iff (cells : ℕ → VarCell) (h : Unnumbered cells) (s t : HeapTerm) :
    (((bVariantCc cells s t).1 = true ↔ Variant [s.tree] [t.tree]) ∧ (bVariantCc cells s t).2 = cells) ↔
      VariantRight cells s t := by
  obtain ⟨hcells, haccept⟩ := bVariantCc_spec h s t
  rw [haccept, and_iff_left hcells, VariantRight]
  by_cases hsusp : IsSusp cells s ∨ IsSusp cells t
  · rw [if_pos hsusp]
    simp only [hsusp, not_true_eq_false, false_and, false_iff]
    refine not_congr ⟨fun hv => ?_, ?_⟩
    · -- one of them is a variable, and so is the other
      have hvar : ∀ u, IsSusp cells u → ∃ x, u.tree = .var x := by
        intro u hu
        cases u <;> first | exact ⟨_, rfl⟩ | exact absurd hu not_false
      rcases hsusp with hs | ht
      · obtain ⟨x, hx⟩ := hvar s hs
        exact ⟨⟨x, hx⟩, variant_var.1 (hx ▸ hv)⟩
      · obtain ⟨y, hy⟩ := hvar t ht
        exact ⟨variant_to_var (hy ▸ hv), ⟨y, hy⟩⟩
    · intro hp
      obtain ⟨⟨x, hx⟩, hy⟩ := hp
      rw [hx]
      exact variant_var.2 hy
  · rw [if_neg hsusp]
    simp only [hsusp, not_false_eq_true, true_and]
    rw [← coincides_iff]
    by_cases hsame : SamePlaces s t
    · have hnumbers : t.tree.rename (secondNumber s t) = t.tree.rename (firsts [] t.tree.occs).idxOf :=
        Tm.rename_congr _ (samePlaces_iff.1 hsame)
      simp only [hsame, true_or, iff_true]
      rw [coincides_iff, variant_iff_rename, rename_first, hnumbers]
    · -- numbered otherwise `t` cannot be accepted and be a variant as well
      have hnot : ¬ (Coincides s t ∧ Variant [s.tree] [t.tree]) := by
        intro hp
        obtain ⟨hc, hv⟩ := hp
        rw [coincides_iff, rename_first] at hc
        exact hsame (samePlaces_iff.2 (Tm.rename_eq_iff.1 (hc.symm.trans (variant_iff_rename.1 hv))))
      tauto

/-- The term `f(X,Y)` for the variables with these addresses. -/
def pair (x y : ℕ) : HeapTerm := .str 8 (.var x) [.var y]

theorem bVariantCc_iff_apart :
    (((bVariantCc (fun _ => .free) (pair 0 1) (pair 2 3)).1 = true ↔ Variant [(pair 0 1).tree] [(pair 2 3).tree]) ∧
      (bVariantCc (fun _ => .free) (pair 0 1) (pair 2 3)).2 = fun _ => .free) ↔
      VariantRight (fun _ => .free) (pair 0 1) (pair 2 3) :=
  bVariantCc_iff (fun _ => .free) (fun _ => rfl) (pair 0 1) (pair 2 3)

/-- `f(X,X)` is accepted as a variant of `f(X,Z)`, whose `Z` is given the number that `X` has. -/
theorem bVariantCc_shared : ¬ ∀ (cells : ℕ → VarCell) (s t : HeapTerm), Unnumbered cells →
      (((bVariantCc cells s t).1 = true ↔ Variant [s.tree] [t.tree]) ∧ (bVariantCc cells s t).2 = cells) := by
  intro h
  have hright := (h (fun _ => .free) (pair 0 0) (pair 0 1) fun _ => rfl).1
  have haccept : (bVariantCc (fun _ => .free) (pair 0 0) (pair 0 1)).1 = true := by decide
  obtain ⟨σ, -, hσ⟩ := hright.1 haccept
  simp [pair, HeapTerm.tree, HeapTerm.trees, Tm.mapVars, Tm.rename] at hσ
  omega

end

end VariantTest

end Picat
