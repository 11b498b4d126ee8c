import Mathlib.Data.Nat.Notation
import Mathlib.Data.Option.Basic
import Mathlib.Logic.Relation
import Mathlib.Tactic.SplitIfs

/-!
# The Boolean propagators

One run of `b_BOOL_OR_c`, `b_BOOL_AND_c`, `bcp` or `bcp1` reads the slots of its frame in order, binds variables on the
way or at the end, and fails, sleeps again or ends the propagator for good.

* `boolean_propagators` : the four propagators do nothing else.
-/

namespace Picat.Boolean

open Relation Function List

/-- What stands in a slot of the frame, and what dereferencing a slot gives. -/
inductive Slot (ι : Type) where
  | const (b : Bool)
  | var (x : ι)

abbrev Store (ι : Type) := ι → Option Bool

/-- The bindings after a run, and whether the frame's status is `SUSP_EXIT`. -/
structure Run (ι : Type) where
  store : Store ι
  exit : Bool

variable {ι : Type}

def deref (σ : Store ι) : Slot ι → Slot ι
  | .const b => .const b
  | .var x => (σ x).elim (.var x) .const

section
variable [DecidableEq ι]

def assignDvar (σ : Store ι) (x : ι) (b : Bool) : Store ι := update σ x (some b)

end

/-- The loop over literals: nothing if one of them holds, else how many are variables, and the last of these with its
sign. -/
def scan (σ : Store ι) : List (Bool × Slot ι) → ℕ × Option (Bool × ι) → Option (ℕ × Option (Bool × ι))
  | [], acc => some acc
  | (a, s) :: ls, (n, last) =>
    match deref σ s with
    | .const b => if b = a then none else scan σ ls (n, last)
    | .var x => scan σ ls (n + 1, some (a, x))

section
variable [DecidableEq ι] (σ : Store ι)

def unitPropagate (ls : List (Bool × Slot ι)) : Option (Run ι) :=
  match scan σ ls (0, none) with
  | none => some ⟨σ, true⟩
  | some (1, some (a, x)) => some ⟨assignDvar σ x a, true⟩
  | some (0, _) => none
  | some _ => some ⟨σ, false⟩

/-- Give `b` to every slot. A variable that occurs again is bound when the loop comes to it the second time. -/
def assignAll (b : Bool) : Store ι → List (Slot ι) → Option (Store ι)
  | σ, [] => some σ
  | σ, s :: ss =>
    match deref σ s with
    | .const c => if c = b then assignAll b σ ss else none
    | .var x => assignAll b (assignDvar σ x b) ss

/-- `X1` is `absorb` if one of the others is, and `!absorb` if none is. -/
def boolJunction (absorb : Bool) (X1 : Slot ι) (Xs : List (Slot ι)) : Option (Run ι) :=
  match deref σ X1 with
  | .var x1 =>
    match scan σ (Xs.map fun X => (absorb, X)) (0, none) with
    | none => some ⟨assignDvar σ x1 absorb, true⟩
    | some (0, _) => some ⟨assignDvar σ x1 (!absorb), true⟩
    | some _ => some ⟨σ, false⟩
  | .const b =>
    if b = absorb then unitPropagate σ (Xs.map fun X => (absorb, X))
    else (assignAll (!absorb) σ Xs).map fun σ1 => ⟨σ1, false⟩

/-- `X1 = (X2 or ... or Xn)` -/
def bBoolOrC (X1 : Slot ι) (Xs : List (Slot ι)) : Option (Run ι) := boolJunction σ true X1 Xs

/-- `X1 = (X2 and ... and Xn)` -/
def bBoolAndC (X1 : Slot ι) (Xs : List (Slot ι)) : Option (Run ι) := boolJunction σ false X1 Xs

/-- The clause `(A1, ..., An, V1, ..., Vn)`, each `Ai` with its `Vi`. -/
def bcp (ls : List (Bool × Slot ι)) : Option (Run ι) := unitPropagate σ ls

/-- The clause `(V1, ..., Vn)` without negated literals. -/
def bcp1 (Vs : List (Slot ι)) : Option (Run ι) := unitPropagate σ (Vs.map fun V => (true, V))

end

/-! ## What the propagators stand for -/

def Slot.val (ρ : ι → Bool) : Slot ι → Bool
  | .const b => b
  | .var x => ρ x

def Store.Extends (σ : Store ι) (ρ : ι → Bool) : Prop := ∀ x b, σ x = some b → ρ x = b

def Store.Bound (σ : Store ι) (Xs : List (Slot ι)) : Prop := ∀ x, Slot.var x ∈ Xs → σ x ≠ none

def OrHolds (X1 : Slot ι) (Xs : List (Slot ι)) (ρ : ι → Bool) : Prop := X1.val ρ = Xs.any fun X => X.val ρ

def AndHolds (X1 : Slot ι) (Xs : List (Slot ι)) (ρ : ι → Bool) : Prop := X1.val ρ = Xs.all fun X => X.val ρ

def ClauseHolds (ls : List (Bool × Slot ι)) (ρ : ι → Bool) : Prop := ∃ l ∈ ls, l.2.val ρ = l.1

/-- What one run of a propagator on the slots `Xs` may leave when the constraint has the solutions `Sol`. -/
structure Propagates (Xs : List (Slot ι)) (Sol : (ι → Bool) → Prop) (σ : Store ι) (left : Option (Run ι)) : Prop where
  binds : ∀ r, left = some r → ∀ x, r.store x ≠ σ x →
    Slot.var x ∈ Xs ∧ σ x = none ∧ ∃ b, r.store x = some b ∧ ∀ ρ, σ.Extends ρ → Sol ρ → ρ x = b
  fails : left = none → ∀ ρ, σ.Extends ρ → ¬ Sol ρ
  exits : ∀ r, left = some r → r.exit = true → ∀ ρ, r.store.Extends ρ → Sol ρ
  settles : ∀ r, left = some r → r.store.Bound Xs → ∀ ρ, r.store.Extends ρ → Sol ρ

/-- Variables are bound by other goals, and a propagator that is not finished is woken. -/
inductive Step [DecidableEq ι] (run : Store ι → Option (Run ι)) : Run ι → Run ι → Prop
  | bind {σ e x} (b : Bool) : σ x = none → Step run ⟨σ, e⟩ ⟨assignDvar σ x b, e⟩
  | wake {σ r} : run σ = some r → Step run ⟨σ, false⟩ r

/-- In a run from any state, a finished propagator has only solutions left, and one whose variables all are bound to a
non-solution is not finished and fails when it is woken. -/
def Rejects [DecidableEq ι] (Xs : List (Slot ι)) (Sol : (ι → Bool) → Prop) (run : Store ι → Option (Run ι)) : Prop :=
  ∀ σ r, ReflTransGen (Step run) ⟨σ, false⟩ r → (r.exit = true → ∀ ρ, r.store.Extends ρ → Sol ρ) ∧
      (r.store.Bound Xs → ∀ ρ, r.store.Extends ρ → ¬ Sol ρ → r.exit = false ∧ run r.store = none)

/-! ## What the loop over literals finds -/

section
variable {σ : Store ι} {ρ : ι → Bool} {s : Slot ι} {b : Bool} {x : ι}

theorem deref_const (h : deref σ s = .const b) (hρ : σ.Extends ρ) : s.val ρ = b := by
  cases s with
  | const c =>
    rw [deref] at h
    exact Slot.const.inj h
  | var y =>
    cases hy : σ y with
    | none => simp [deref, hy] at h
    | some c =>
      simp only [deref, hy, Option.elim_some, Slot.const.injEq] at h
      exact h ▸ hρ y c hy

theorem deref_var (h : deref σ s = .var x) : s = .var x ∧ σ x = none := by
  cases s with
  | const c => simp [deref] at h
  | var y =>
    cases hy : σ y with
    | none =>
      simp only [deref, hy, Option.elim_none, Slot.var.injEq] at h
      exact ⟨congrArg _ h, h ▸ hy⟩
    | some c => simp [deref, hy] at h

theorem deref_of_none (h : σ x = none) : deref σ (.var x) = .var x := by simp [deref, h]

def freeLits (σ : Store ι) (ls : List (Bool × Slot ι)) : List (Bool × ι) :=
  ls.filterMap fun l =>
    match deref σ l.2 with
    | .const _ => none
    | .var x => some (l.1, x)

def Satisfied (σ : Store ι) (ls : List (Bool × Slot ι)) : Prop := ∃ l ∈ ls, deref σ l.2 = .const l.1

section
variable {ls : List (Bool × Slot ι)}

theorem mem_freeLits {a : Bool} : (a, x) ∈ freeLits σ ls ↔ (a, Slot.var x) ∈ ls ∧ σ x = none := by
  rw [freeLits, mem_filterMap]
  constructor
  · rintro ⟨⟨a1, s⟩, hmem, hs⟩
    dsimp only at hs
    cases hd : deref σ s with
    | const c => simp [hd] at hs
    | var y =>
      obtain ⟨rfl, hy⟩ := deref_var hd
      simp only [hd, Option.some.injEq, Prod.mk.injEq] at hs
      obtain ⟨rfl, rfl⟩ := hs
      exact ⟨hmem, hy⟩
  · rintro ⟨hmem, hx⟩
    exact ⟨_, hmem, by simp [deref_of_none hx]⟩

theorem scan_none (h : Satisfied σ ls) (acc : ℕ × Option (Bool × ι)) : scan σ ls acc = none := by
  induction ls generalizing acc with
  | nil => simp [Satisfied] at h
  | cons l ls ih =>
    obtain ⟨a, s⟩ := l
    obtain ⟨n, last⟩ := acc
    rw [scan]
    cases hd : deref σ s with
    | const c =>
      dsimp only
      split_ifs with hc
      · rfl
      · refine ih ?_ _
        obtain ⟨l1, hmem, hl1⟩ := h
        rcases mem_cons.1 hmem with rfl | hmem
        · exact absurd (Slot.const.inj (hd.symm.trans hl1)) hc
        · exact ⟨l1, hmem, hl1⟩
    | var y =>
      refine ih ?_ _
      obtain ⟨l1, hmem, hl1⟩ := h
      rcases mem_cons.1 hmem with rfl | hmem
      · simp [hd] at hl1
      · exact ⟨l1, hmem, hl1⟩

theorem scan_some (h : ¬ Satisfied σ ls) (acc : ℕ × Option (Bool × ι)) :
    scan σ ls acc = some (acc.1 + (freeLits σ ls).length, (freeLits σ ls).getLast?.or acc.2) := by
  induction ls generalizing acc with
  | nil => simp [scan, freeLits]
  | cons l ls ih =>
    obtain ⟨a, s⟩ := l
    obtain ⟨n, last⟩ := acc
    have hrest : ¬ Satisfied σ ls := fun ⟨l1, hmem, hl1⟩ => h ⟨l1, mem_cons_of_mem _ hmem, hl1⟩
    rw [scan]
    cases hd : deref σ s with
    | const c =>
      have hc : c ≠ a := fun hc => h ⟨(a, s), mem_cons_self, hc ▸ hd⟩
      have hfree : freeLits σ ((a, s) :: ls) = freeLits σ ls := by simp [freeLits, hd]
      simp only [if_neg hc, ih hrest, hfree]
    | var y =>
      have hfree : freeLits σ ((a, s) :: ls) = (a, y) :: freeLits σ ls := by simp [freeLits, hd]
      simp only [ih hrest, hfree, length_cons]
      rw [List.getLast?_cons]
      have hlen : n + 1 + (freeLits σ ls).length = n + ((freeLits σ ls).length + 1) := by
        rw [Nat.add_assoc, Nat.add_comm 1]
      rw [hlen]
      cases (freeLits σ ls).getLast? <;> rfl

end

end

/-! ## Unit propagation -/

section
variable {Xs Xs' : List (Slot ι)} {Sol Sol' : (ι → Bool) → Prop} {σ : Store ι} {left : Option (Run ι)}

theorem Propagates.extends (h : Propagates Xs Sol σ left) {r : Run ι} (hr : left = some r) {ρ : ι → Bool}
    (hρ : r.store.Extends ρ) : σ.Extends ρ := by
  intro x b hx
  apply hρ x b
  by_contra hne
  have hdiff := h.binds r hr x fun heq => hne (heq.trans hx)
  simp [hx] at hdiff

theorem Propagates.congr (h : Propagates Xs Sol σ left) (hsub : Xs ⊆ Xs')
    (hsol : ∀ ρ, σ.Extends ρ → (Sol ρ ↔ Sol' ρ)) : Propagates Xs' Sol' σ left where
  binds r hr x hx := by
    obtain ⟨hmem, hnone, b, hb, hforced⟩ := h.binds r hr x hx
    exact ⟨hsub hmem, hnone, b, hb, fun ρ hρ hs => hforced ρ hρ ((hsol ρ hρ).2 hs)⟩
  fails hr ρ hρ hs := h.fails hr ρ hρ ((hsol ρ hρ).2 hs)
  exits r hr hexit ρ hρ := (hsol ρ (h.extends hr hρ)).1 (h.exits r hr hexit ρ hρ)
  settles r hr hbound ρ hρ :=
    (hsol ρ (h.extends hr hρ)).1 (h.settles r hr (fun x hx => hbound x (hsub hx)) ρ hρ)

theorem propagates_none (h : ∀ ρ, σ.Extends ρ → ¬ Sol ρ) : Propagates Xs Sol σ none := by
  apply Propagates.mk <;> simp_all

theorem propagates_same {e : Bool} (hexit : e = true → ∀ ρ, σ.Extends ρ → Sol ρ)
    (hsettle : σ.Bound Xs → ∀ ρ, σ.Extends ρ → Sol ρ) : Propagates Xs Sol σ (some ⟨σ, e⟩) := by
  apply Propagates.mk <;> simp_all

variable [DecidableEq ι] {x : ι} {b : Bool}

theorem extends_assignDvar {ρ : ι → Bool} (hx : σ x = none) : (assignDvar σ x b).Extends ρ ↔ σ.Extends ρ ∧ ρ x = b := by
  constructor
  · intro h
    refine ⟨fun y c hy => h y c ?_, h x b (update_self ..)⟩
    rw [assignDvar, update_of_ne, hy]
    rintro rfl
    simp [hx] at hy
  · rintro ⟨h, rfl⟩ y c hy
    by_cases hyx : y = x
    · subst hyx
      rw [assignDvar, update_self] at hy
      exact Option.some.inj hy
    · rw [assignDvar, update_of_ne hyx] at hy
      exact h y c hy

theorem propagates_exit (hmem : Slot.var x ∈ Xs) (hx : σ x = none) (hforced : ∀ ρ, σ.Extends ρ → (Sol ρ ↔ ρ x = b)) :
    Propagates Xs Sol σ (some ⟨assignDvar σ x b, true⟩) := by
  have hsol : ∀ ρ, (assignDvar σ x b).Extends ρ → Sol ρ := fun ρ hρ =>
    (hforced ρ ((extends_assignDvar hx).1 hρ).1).2 ((extends_assignDvar hx).1 hρ).2
  apply Propagates.mk
  · rintro r hr y hy
    cases hr
    have hyx : y = x := by
      by_contra hne
      exact hy (update_of_ne hne ..)
    subst hyx
    exact ⟨hmem, hx, b, update_self .., fun ρ hρ hs => (hforced ρ hρ).1 hs⟩
  · simp
  · rintro r hr - ρ hρ
    cases hr
    exact hsol ρ hρ
  · rintro r hr - ρ hρ
    cases hr
    exact hsol ρ hρ

end

section
variable {σ : Store ι} {ρ : ι → Bool} {ls : List (Bool × Slot ι)}

theorem clauseHolds_of_satisfied (h : Satisfied σ ls) (hρ : σ.Extends ρ) : ClauseHolds ls ρ := by
  obtain ⟨l, hmem, hl⟩ := h
  exact ⟨l, hmem, deref_const hl hρ⟩

theorem clauseHolds_iff_free (h : ¬ Satisfied σ ls) (hρ : σ.Extends ρ) :
    ClauseHolds ls ρ ↔ ∃ l ∈ freeLits σ ls, ρ l.2 = l.1 := by
  constructor
  · rintro ⟨⟨a, s⟩, hmem, hval⟩
    cases hd : deref σ s with
    | const c =>
      have hc : c = a := (deref_const hd hρ).symm.trans hval
      exact absurd ⟨_, hmem, hc ▸ hd⟩ h
    | var x =>
      obtain ⟨rfl, hx⟩ := deref_var hd
      exact ⟨(a, x), mem_freeLits.2 ⟨hmem, hx⟩, hval⟩
  · rintro ⟨⟨a, x⟩, hmem, hval⟩
    exact ⟨(a, .var x), (mem_freeLits.1 hmem).1, hval⟩

theorem freeLits_eq_nil (h : σ.Bound (ls.map Prod.snd)) : freeLits σ ls = [] := by
  apply eq_nil_iff_forall_not_mem.2
  rintro ⟨a, x⟩ hmem
  obtain ⟨hin, hx⟩ := mem_freeLits.1 hmem
  exact h x (mem_map.2 ⟨_, hin, rfl⟩) hx

variable [DecidableEq ι]

theorem unitPropagate_propagates (σ : Store ι) (ls : List (Bool × Slot ι)) :
    Propagates (ls.map Prod.snd) (ClauseHolds ls) σ (unitPropagate σ ls) := by
  by_cases hsat : Satisfied σ ls
  · rw [unitPropagate, scan_none hsat]
    exact propagates_same (fun _ ρ hρ => clauseHolds_of_satisfied hsat hρ) fun _ ρ hρ => clauseHolds_of_satisfied hsat hρ
  · rw [unitPropagate, scan_some hsat]
    have hiff := fun ρ (hρ : σ.Extends ρ) => clauseHolds_iff_free hsat hρ
    rcases hfree : freeLits σ ls with _ | ⟨⟨a, x⟩, _ | ⟨l, rest⟩⟩
    · refine propagates_none fun ρ hρ hs => ?_
      simp [hiff ρ hρ, hfree] at hs
    · obtain ⟨hmem, hx⟩ := mem_freeLits.1 (hfree ▸ mem_singleton_self (a, x))
      exact propagates_exit (mem_map.2 ⟨_, hmem, rfl⟩) hx fun ρ hρ => by simp [hiff ρ hρ, hfree]
    · have hbound : ¬ σ.Bound (ls.map Prod.snd) := fun hb => by simp [freeLits_eq_nil hb] at hfree
      have hleft : unitPropagate σ ls = some ⟨σ, false⟩ := by
        simp only [unitPropagate, scan_some hsat, hfree, length_cons]
      rw [unitPropagate, scan_some hsat, hfree] at hleft
      rw [hleft]
      exact propagates_same (fun h => absurd h Bool.false_ne_true) fun hb => absurd hb hbound

end

/-! ## Disjunctions and conjunctions -/

section
variable [DecidableEq ι] {b : Bool} {σ σ1 : Store ι} {ρ : ι → Bool} {Xs : List (Slot ι)}

theorem assignAll_none (h : assignAll b σ Xs = none) (hρ : σ.Extends ρ) : ∃ X ∈ Xs, X.val ρ ≠ b := by
  induction Xs generalizing σ with
  | nil => simp [assignAll] at h
  | cons X Xs ih =>
    rw [assignAll] at h
    cases hd : deref σ X with
    | const c =>
      simp only [hd] at h
      by_cases hc : c = b
      · obtain ⟨Y, hY, hne⟩ := ih ((if_pos hc).symm.trans h) hρ
        exact ⟨Y, mem_cons_of_mem _ hY, hne⟩
      · exact ⟨X, mem_cons_self, fun hX => hc ((deref_const hd hρ).symm.trans hX)⟩
    | var x =>
      simp only [hd] at h
      obtain ⟨rfl, hx⟩ := deref_var hd
      by_cases hval : ρ x = b
      · obtain ⟨Y, hY, hne⟩ := ih h ((extends_assignDvar hx).2 ⟨hρ, hval⟩)
        exact ⟨Y, mem_cons_of_mem _ hY, hne⟩
      · exact ⟨.var x, mem_cons_self, hval⟩

theorem assignAll_extends (h : assignAll b σ Xs = some σ1) : σ1.Extends ρ ↔ σ.Extends ρ ∧ ∀ X ∈ Xs, X.val ρ = b := by
  induction Xs generalizing σ with
  | nil =>
    rw [assignAll, Option.some.injEq] at h
    simp [h]
  | cons X Xs ih =>
    rw [assignAll] at h
    cases hd : deref σ X with
    | const c =>
      simp only [hd] at h
      split_ifs at h with hc
      rw [ih h, forall_mem_cons]
      exact and_congr_right fun hρ => (and_iff_right ((deref_const hd hρ).trans hc)).symm
    | var x =>
      simp only [hd] at h
      obtain ⟨rfl, hx⟩ := deref_var hd
      rw [ih h, extends_assignDvar hx, forall_mem_cons, and_assoc, Slot.val]

theorem assignAll_binds (h : assignAll b σ Xs = some σ1) {x : ι} (hx : σ1 x ≠ σ x) :
    σ x = none ∧ σ1 x = some b ∧ Slot.var x ∈ Xs := by
  induction Xs generalizing σ with
  | nil =>
    rw [assignAll, Option.some.injEq] at h
    exact absurd (congrFun h x).symm hx
  | cons X Xs ih =>
    rw [assignAll] at h
    cases hd : deref σ X with
    | const c =>
      simp only [hd] at h
      split_ifs at h
      obtain ⟨hnone, hsome, hmem⟩ := ih h hx
      exact ⟨hnone, hsome, mem_cons_of_mem _ hmem⟩
    | var y =>
      simp only [hd] at h
      obtain ⟨rfl, hy⟩ := deref_var hd
      by_cases hxy : x = y
      · subst hxy
        refine ⟨hy, ?_, mem_cons_self⟩
        -- a variable that has its value keeps it
        by_contra hne
        have hkeep := ih h (by rwa [assignDvar, update_self])
        simp [assignDvar] at hkeep
      · have hsame : assignDvar σ y b x = σ x := update_of_ne hxy ..
        obtain ⟨hnone, hsome, hmem⟩ := ih h (hsame ▸ hx)
        exact ⟨hsame ▸ hnone, hsome, mem_cons_of_mem _ hmem⟩

end

section
variable [DecidableEq ι] {absorb : Bool} {σ : Store ι} {ρ : ι → Bool} {X1 : Slot ι} {Xs : List (Slot ι)}

def JunctionHolds (absorb : Bool) (X1 : Slot ι) (Xs : List (Slot ι)) (ρ : ι → Bool) : Prop :=
  X1.val ρ = absorb ↔ ∃ X ∈ Xs, X.val ρ = absorb

omit [DecidableEq ι] in
theorem clauseHolds_map : ClauseHolds (Xs.map fun X => (absorb, X)) ρ ↔ ∃ X ∈ Xs, X.val ρ = absorb := by
  simp [ClauseHolds]

omit [DecidableEq ι] in
theorem map_snd_map (a : Bool) (Xs : List (Slot ι)) : (Xs.map fun X => (a, X)).map Prod.snd = Xs := by
  simp [List.map_map, Function.comp_def]

theorem boolJunction_var {x : ι} (hx : σ x = none) :
    Propagates (.var x :: Xs) (JunctionHolds absorb (.var x) Xs) σ (boolJunction σ absorb (.var x) Xs) := by
  rw [boolJunction, deref_of_none hx]
  dsimp only
  have hclause : ∀ ρ, ClauseHolds (Xs.map fun X => (absorb, X)) ρ ↔ ∃ X ∈ Xs, X.val ρ = absorb :=
    fun ρ => clauseHolds_map
  by_cases hsat : Satisfied σ (Xs.map fun X => (absorb, X))
  · rw [scan_none hsat]
    refine propagates_exit mem_cons_self hx fun ρ hρ => ?_
    exact iff_true_right ((hclause ρ).1 (clauseHolds_of_satisfied hsat hρ))
  · rw [scan_some hsat]
    rcases hfree : freeLits σ (Xs.map fun X => (absorb, X)) with _ | ⟨l, rest⟩
    · refine propagates_exit mem_cons_self hx fun ρ hρ => ?_
      have hno : ¬ ∃ X ∈ Xs, X.val ρ = absorb := by
        rw [← hclause, clauseHolds_iff_free hsat hρ, hfree]
        simp
      rw [JunctionHolds, iff_false_right hno, Slot.val, Bool.eq_not]
    · have hbound : ¬ σ.Bound (.var x :: Xs) := fun hb => hb x mem_cons_self hx
      simp only [length_cons, Nat.zero_add]
      exact propagates_same (fun h => absurd h Bool.false_ne_true) fun hb => absurd hb hbound

theorem boolJunction_all (h1 : deref σ X1 = .const (!absorb)) :
    Propagates (X1 :: Xs) (JunctionHolds absorb X1 Xs) σ (boolJunction σ absorb X1 Xs) := by
  have hsol : ∀ ρ, σ.Extends ρ → (JunctionHolds absorb X1 Xs ρ ↔ ∀ X ∈ Xs, X.val ρ = !absorb) := by
    intro ρ hρ
    have hX1 : X1.val ρ ≠ absorb := by simp [deref_const h1 hρ]
    simp [JunctionHolds, hX1, Bool.eq_not]
  rw [boolJunction, h1]
  dsimp only
  rw [if_neg (by simp)]
  cases hall : assignAll (!absorb) σ Xs with
  | none =>
    refine propagates_none fun ρ hρ hs => ?_
    obtain ⟨X, hX, hne⟩ := assignAll_none hall hρ
    exact hne ((hsol ρ hρ).1 hs X hX)
  | some σ1 =>
    have hleft : ∀ ρ, σ1.Extends ρ → JunctionHolds absorb X1 Xs ρ := fun ρ hρ =>
      (hsol ρ ((assignAll_extends hall).1 hρ).1).2 ((assignAll_extends hall).1 hρ).2
    apply Propagates.mk
    · rintro r hr x hx
      cases hr
      obtain ⟨hnone, hsome, hmem⟩ := assignAll_binds hall hx
      exact ⟨mem_cons_of_mem _ hmem, hnone, _, hsome, fun ρ hρ hs => (hsol ρ hρ).1 hs _ hmem⟩
    · simp
    · rintro r hr hexit
      cases hr
      exact absurd hexit Bool.false_ne_true
    · rintro r hr - ρ hρ
      cases hr
      exact hleft ρ hρ

theorem boolJunction_propagates (σ : Store ι) (absorb : Bool) (X1 : Slot ι) (Xs : List (Slot ι)) :
    Propagates (X1 :: Xs) (JunctionHolds absorb X1 Xs) σ (boolJunction σ absorb X1 Xs) := by
  cases h1 : deref σ X1 with
  | var x =>
    obtain ⟨rfl, hx⟩ := deref_var h1
    exact boolJunction_var hx
  | const b =>
    by_cases hb : b = absorb
    · subst hb
      have hrun : boolJunction σ b X1 Xs = unitPropagate σ (Xs.map fun X => (b, X)) := by simp [boolJunction, h1]
      rw [hrun]
      apply (unitPropagate_propagates σ _).congr
      · rw [map_snd_map]
        exact subset_cons_self ..
      · intro ρ hρ
        rw [clauseHolds_map, JunctionHolds, iff_true_left (deref_const h1 hρ)]
    · exact boolJunction_all (h1.trans (congrArg _ (Bool.eq_not.2 hb)))

theorem bBoolOrC_propagates (σ : Store ι) (X1 : Slot ι) (Xs : List (Slot ι)) :
    Propagates (X1 :: Xs) (OrHolds X1 Xs) σ (bBoolOrC σ X1 Xs) := by
  apply (boolJunction_propagates σ true X1 Xs).congr (List.Subset.refl _)
  intro ρ _
  have hany : (Xs.any fun X => X.val ρ) = true ↔ ∃ X ∈ Xs, X.val ρ = true := any_eq_true
  rw [JunctionHolds, OrHolds, ← hany]
  exact Bool.eq_iff_iff.symm

theorem bBoolAndC_propagates (σ : Store ι) (X1 : Slot ι) (Xs : List (Slot ι)) :
    Propagates (X1 :: Xs) (AndHolds X1 Xs) σ (bBoolAndC σ X1 Xs) := by
  apply (boolJunction_propagates σ false X1 Xs).congr (List.Subset.refl _)
  intro ρ _
  have hall : (Xs.all fun X => X.val ρ) = false ↔ ∃ X ∈ Xs, X.val ρ = false := by simp
  rw [JunctionHolds, AndHolds, ← hall]
  cases X1.val ρ <;> cases Xs.all fun X => X.val ρ <;> simp

theorem bcp1_propagates (σ : Store ι) (Vs : List (Slot ι)) :
    Propagates Vs (fun ρ => ∃ V ∈ Vs, V.val ρ = true) σ (bcp1 σ Vs) := by
  apply (unitPropagate_propagates σ (Vs.map fun V => (true, V))).congr
  · rw [map_snd_map]
    exact List.Subset.refl _
  · intro ρ _
    exact clauseHolds_map

end

section
variable [DecidableEq ι] {Xs : List (Slot ι)} {Sol : (ι → Bool) → Prop} {run : Store ι → Option (Run ι)}

theorem step_exit (hrun : ∀ σ, Propagates Xs Sol σ (run σ)) {r r1 : Run ι} (hstep : Step run r r1)
    (h : r.exit = true → ∀ ρ, r.store.Extends ρ → Sol ρ) : r1.exit = true → ∀ ρ, r1.store.Extends ρ → Sol ρ := by
  cases hstep with
  | bind b hx => exact fun hexit ρ hρ => h hexit ρ ((extends_assignDvar hx).1 hρ).1
  | wake hr => exact (hrun _).exits _ hr

theorem Propagates.rejects (hrun : ∀ σ, Propagates Xs Sol σ (run σ)) : Rejects Xs Sol run := by
  intro σ r hreach
  have hexit : r.exit = true → ∀ ρ, r.store.Extends ρ → Sol ρ := by
    induction hreach with
    | refl => exact fun h => absurd h Bool.false_ne_true
    | tail _ hstep ih => exact step_exit hrun hstep ih
  refine ⟨hexit, fun hbound ρ hρ hno => ⟨?_, ?_⟩⟩
  · cases hr : r.exit with
    | false => rfl
    | true => exact absurd (hexit hr ρ hρ) hno
  · by_contra h
    obtain ⟨r1, hr1⟩ := Option.ne_none_iff_exists'.1 h
    -- nothing is left to bind, so the run would leave the same non-solution
    have hkeep : ∀ x, r1.store x = r.store x := by
      intro x
      by_contra hne
      obtain ⟨hmem, hnone, -⟩ := (hrun _).binds r1 hr1 x hne
      exact hbound x hmem hnone
    apply hno
    apply (hrun _).settles r1 hr1
    · exact fun x hx => hkeep x ▸ hbound x hx
    · exact fun x b hx => hρ x b (hkeep x ▸ hx)

end

/-- Of each of the four propagators: what one run may do, and that no run of steps loses the constraint. -/
theorem boolean_propagators [DecidableEq ι] (X1 : Slot ι) (Xs : List (Slot ι)) (ls : List (Bool × Slot ι)) :
    ((∀ σ, Propagates (X1 :: Xs) (OrHolds X1 Xs) σ (bBoolOrC σ X1 Xs)) ∧
        Rejects (X1 :: Xs) (OrHolds X1 Xs) fun σ => bBoolOrC σ X1 Xs) ∧
      ((∀ σ, Propagates (X1 :: Xs) (AndHolds X1 Xs) σ (bBoolAndC σ X1 Xs)) ∧
        Rejects (X1 :: Xs) (AndHolds X1 Xs) fun σ => bBoolAndC σ X1 Xs) ∧
      ((∀ σ, Propagates (ls.map Prod.snd) (ClauseHolds ls) σ (bcp σ ls)) ∧
        Rejects (ls.map Prod.snd) (ClauseHolds ls) fun σ => bcp σ ls) ∧
      ((∀ σ, Propagates Xs (fun ρ => ∃ V ∈ Xs, V.val ρ = true) σ (bcp1 σ Xs)) ∧
        Rejects Xs (fun ρ => ∃ V ∈ Xs, V.val ρ = true) fun σ => bcp1 σ Xs) := by
  have hor := fun σ => bBoolOrC_propagates σ X1 Xs
  have hand := fun σ => bBoolAndC_propagates σ X1 Xs
  have hbcp : ∀ σ, Propagates (ls.map Prod.snd) (ClauseHolds ls) σ (bcp σ ls) := fun σ => unitPropagate_propagates σ ls
  have hbcp1 := fun σ => bcp1_propagates σ Xs
  exact ⟨⟨hor, Propagates.rejects hor⟩, ⟨hand, Propagates.rejects hand⟩, ⟨hbcp, Propagates.rejects hbcp⟩,
    hbcp1, Propagates.rejects hbcp1⟩

end Picat.Boolean
