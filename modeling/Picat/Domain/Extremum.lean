import Picat.Domain.HallSet
import Picat.Bigint.Term

/-!
# The maximum and the minimum of a vector

`b_PROP_MAX_c` and `b_PROP_MIN_c` go once through the vector: each element is cut at the far bound of the result, and
both ends of what is left are gathered. Then the result is narrowed, or, when one candidate is left for it, that one is
bound and the propagator is done. The two texts differ in the direction of every comparison only.

* `bPropMaxC_bPropMinC_sound` : no solution is lost, and an exit leaves solutions only.
-/

namespace Picat

open List

/-! ## The two directions -/

inductive Extremum where
  | max
  | min
  deriving DecidableEq, Repr

namespace Extremum

/-- `a` lies further out than `b`. -/
def Beyond : Extremum → ℤ → ℤ → Prop
  | max, a, b => a > b
  | min, a, b => a < b

instance (side : Extremum) (a b : ℤ) : Decidable (side.Beyond a b) := by
  cases side <;> unfold Beyond <;> infer_instance

def far : Extremum → ℤ → ℤ → ℤ
  | max, _, last => last
  | min, first, _ => first

def near : Extremum → ℤ → ℤ → ℤ
  | max, first, _ => first
  | min, _, last => last

/-- `domain_region_noint` between the near and the far end. -/
def region : Extremum → ℤ → ℤ → Dvar → Except Stop Dvar
  | max, near, far, d => domainRegionNoint d near far
  | min, near, far, d => domainRegionNoint d far near

/-- What `acc_min` of the maximum, or `acc_max` of the minimum, starts from. -/
def nearStart : Extremum → ℤ
  | max => bpMaxint1W
  | min => bpMinint1W

def farStart : Extremum → ℤ
  | max => bpMinint1W
  | min => bpMaxint1W

/-- `m` is an element of `S` beyond which there is none. -/
def Of : Extremum → Set ℤ → ℤ → Prop
  | max, S, m => IsGreatest S m
  | min, S, m => IsLeast S m

end Extremum

/-! ## The propagator -/

/-- The locals of the loop. `near` and `far` are `acc_min` and `acc_max` for the maximum, the other way round for the
minimum. -/
structure PropAcc where
  numOfVars : ℕ
  near : ℤ
  far : ℤ
  dvPtr : Option ℕ
  deriving DecidableEq, Repr

/-- One element: a variable that reaches beyond the result is cut, an integer there is a failure. -/
def propElement (side : Extremum) (far1 : ℤ) (s : Store) (acc : PropAcc) (x : FdTerm) : Except Stop (Store × PropAcc) :=
  match deref s x with
  | .dvar r => do
      let near := side.near (s r).first (s r).last
      let far := side.far (s r).first (s r).last
      let s ← if side.Beyond far far1 then updateM s r (side.region near far1) else .ok s
      let accNear := if side.Beyond acc.near near then near else acc.near
      return (s, { acc with numOfVars := acc.numOfVars + 1, near := accNear, dvPtr := some r })
  | .int x =>
    if side.Beyond x far1 then .error .fail
    else
      let accNear := if side.Beyond acc.near x then x else acc.near
      let accFar := if side.Beyond x acc.far then x else acc.far
      .ok (s, { acc with near := accNear, far := accFar })

/-- The loop over `X2`, .., `Xn`. -/
def propLoop (side : Extremum) (far1 : ℤ) : List FdTerm → Store → PropAcc → Except Stop (Store × PropAcc)
  | [], s, acc => .ok (s, acc)
  | x :: xs, s, acc => do
      let (s, acc) ← propElement side far1 s acc x
      propLoop side far1 xs s acc

/-- `dm_true`, `ASSIGN_DVAR` and `SUSP_EXIT`, or a failure. -/
def assignAndExit (s : Store) (r : ℕ) (v : ℤ) : Except Stop (Store × Bool) := do
  if ← dmTrue (s r) v then return (Function.update s r (assignDvar (s r) v), true) else .error .fail

/-- What comes after the loop when `x1` is a variable. -/
def propResultVar (side : Extremum) (near1 far1 : ℤ) (r1 : ℕ) (s : Store) (acc : PropAcc) :
    Except Stop (Store × Bool) :=
  if acc.numOfVars = 0 then assignAndExit s r1 acc.far
  else if side.Beyond acc.near near1 then do
    let s ← updateM s r1 (side.region acc.near far1)
    return (s, false)
  else .ok (s, false)

/-- What comes after the loop when `x1` is an integer. `dv_ptr` has been set when a variable has been counted. -/
def propResultInt (side : Extremum) (x1 : ℤ) (s : Store) (acc : PropAcc) : Except Stop (Store × Bool) :=
  if acc.numOfVars = 0 then
    if x1 = acc.far then .ok (s, false) else .error .fail
  else if acc.numOfVars = 1 ∧ side.Beyond x1 acc.far then
    match acc.dvPtr with
    | some r => if (s r).var = .susp then assignAndExit s r x1 else .ok (s, false)
    | none => .error .oob
  else .ok (s, false)

/-- The text of both propagators. `first1 != last1` tells whether `x1` is a variable: the bounds of a free variable
differ. -/
def propExtremum (side : Extremum) (s : Store) (X1 : FdTerm) (Xs : List FdTerm) : Except Stop (Store × Bool) :=
  let acc : PropAcc := ⟨0, side.nearStart, side.farStart, none⟩
  match deref s X1 with
  | .dvar r1 => do
      let first1 := (s r1).first
      let last1 := (s r1).last
      let (s, acc) ← propLoop side (side.far first1 last1) Xs s acc
      if first1 ≠ last1 then propResultVar side (side.near first1 last1) (side.far first1 last1) r1 s acc
      else propResultInt side first1 s acc
  | .int x1 => do
      let (s, acc) ← propLoop side x1 Xs s acc
      propResultInt side x1 s acc

def bPropMaxC (s : Store) (X1 : FdTerm) (Xs : List FdTerm) : Except Stop (Store × Bool) :=
  propExtremum .max s X1 Xs

def bPropMinC (s : Store) (X1 : FdTerm) (Xs : List FdTerm) : Except Stop (Store × Bool) :=
  propExtremum .min s X1 Xs

/-! ## The order of a direction -/

namespace Extremum

variable {side : Extremum} {a b c m : ℤ} {S : Set ℤ} {d : Dvar} {v : ℤ}

theorem beyond_irrefl : ¬ side.Beyond a a := by
  cases side <;> simp [Beyond]

theorem not_beyond_trans (hab : ¬ side.Beyond a b) (hbc : ¬ side.Beyond b c) : ¬ side.Beyond a c := by
  cases side <;> simp only [Beyond] at * <;> omega

theorem Beyond.not_beyond (h : side.Beyond a b) : ¬ side.Beyond b a := by
  cases side <;> simp only [Beyond] at * <;> omega

theorem eq_of_not_beyond (hab : ¬ side.Beyond a b) (hba : ¬ side.Beyond b a) : a = b := by
  cases side <;> simp only [Beyond] at * <;> omega

theorem of_iff : side.Of S m ↔ m ∈ S ∧ ∀ a ∈ S, ¬ side.Beyond a m := by
  cases side with
  | max => simp only [Of, IsGreatest, upperBounds, Beyond, Set.mem_ofPred_eq, not_lt]
  | min => simp only [Of, IsLeast, lowerBounds, Beyond, Set.mem_ofPred_eq, not_lt]

theorem not_beyond_far (h : d.first ≤ v ∧ v ≤ d.last) : ¬ side.Beyond v (side.far d.first d.last) := by
  cases side <;> simp only [Beyond, far] <;> omega

theorem near_not_beyond (h : d.first ≤ v ∧ v ≤ d.last) : ¬ side.Beyond (side.near d.first d.last) v := by
  cases side <;> simp only [Beyond, near] <;> omega

theorem region_keeps (h : Keeps d v) (hnear : ¬ side.Beyond a v) (hfar : ¬ side.Beyond v b) :
    ∃ d', side.region a b d = .ok d' ∧ Keeps d' v := by
  cases side with
  | max => exact h.regionNoint (not_lt.1 hnear) (not_lt.1 hfar)
  | min => exact h.regionNoint (not_lt.1 hfar) (not_lt.1 hnear)

theorem eq_farStart (h : bpIn1WIntRange a) (hnot : ¬ side.Beyond a side.farStart) : a = side.farStart := by
  unfold bpIn1WIntRange at h
  cases side <;> simp only [Beyond, farStart] at * <;> omega

end Extremum

/-! ## The loop -/

section
variable {side : Extremum} {s₀ s s' : Store} {acc acc' : PropAcc} {x t : FdTerm} {xs ys : List FdTerm} {far1 v : ℤ} {r : ℕ}

theorem deref_update_of_int {d : Dvar} (ht : deref s t = .int v) (hr : deref s (.dvar r) = .dvar r) :
    deref (Function.update s r d) t = .int v := by
  cases t with
  | int w => exact ht
  | dvar q =>
    have hqr : q ≠ r := by
      rintro rfl
      rw [hr] at ht
      contradiction
    simpa only [deref, Function.update_of_ne hqr] using ht

/-- The elements `xs` have been gone through. As long as one variable has been met at most, everything else is an
integer, none of them beyond `far`. -/
structure Seen (side : Extremum) (s₀ s : Store) (acc : PropAcc) (xs : List FdTerm) : Prop where
  bound : ∀ t v, deref s₀ t = .int v → deref s t = .int v
  same : acc.numOfVars = 0 → s = s₀
  each : ∀ x ∈ xs, (∃ v, deref s x = .int v ∧ ¬ side.Beyond v acc.far) ∨
    (0 < acc.numOfVars ∧ (acc.numOfVars = 1 → ∃ r, x = .dvar r ∧ acc.dvPtr = some r))
  reached : acc.numOfVars = 0 → (xs = [] ∧ acc.far = side.farStart) ∨ ∃ x ∈ xs, deref s x = .int acc.far
  dvPtr : 0 < acc.numOfVars → ∃ r, .dvar r ∈ xs ∧ acc.dvPtr = some r

theorem Seen.int (h : Seen side s₀ s acc xs) (hx : deref s x = .int v) (h1 : ∀ v, deref s₀ x = .int v → bpIn1WIntRange v)
    (near : ℤ) :
    Seen side s₀ s { acc with near := near, far := if side.Beyond v acc.far then v else acc.far } (xs ++ [x]) := by
  have hfar : ∀ a, ¬ side.Beyond a acc.far → ¬ side.Beyond a (if side.Beyond v acc.far then v else acc.far) := by
    intro a ha
    split
    · next hv => exact Extremum.not_beyond_trans ha hv.not_beyond
    · exact ha
  refine ⟨h.bound, h.same, fun y hy => ?_, fun hnum => ?_, fun hnum => ?_⟩
  · rcases mem_append.1 hy with hy | hy
    · rcases h.each y hy with ⟨a, ha, hle⟩ | hvar
      · exact .inl ⟨a, ha, hfar a hle⟩
      · exact .inr hvar
    · rw [mem_singleton] at hy
      subst hy
      refine .inl ⟨v, hx, ?_⟩
      dsimp only
      split
      · exact Extremum.beyond_irrefl
      · next hv => exact hv
  · apply Or.inr
    dsimp only
    split
    · exact ⟨x, by simp, hx⟩
    · next hv =>
        rcases h.reached hnum with ⟨-, hstart⟩ | ⟨y, hy, hfar⟩
        · have hrange := h1 v (by rw [← h.same hnum]; exact hx)
          rw [hstart] at hv ⊢
          exact ⟨x, by simp, by rw [hx, Extremum.eq_farStart hrange hv]⟩
        · exact ⟨y, mem_append_left _ hy, hfar⟩
  · obtain ⟨r, hr, hptr⟩ := h.dvPtr hnum
    exact ⟨r, mem_append_left _ hr, hptr⟩

theorem Seen.var (h : Seen side s₀ s acc xs) (hx : deref s x = .dvar r)
    (hs' : s' = s ∨ ∃ d, s' = Function.update s r d) (near : ℤ) :
    Seen side s₀ s' { acc with numOfVars := acc.numOfVars + 1, near := near, dvPtr := some r } (xs ++ [x]) := by
  have hxr := eq_of_deref hx
  have hkeep : ∀ t v, deref s t = .int v → deref s' t = .int v := by
    intro t v ht
    rcases hs' with rfl | ⟨d, rfl⟩
    · exact ht
    · exact deref_update_of_int ht (hxr ▸ hx)
  refine ⟨fun t v ht => hkeep t v (h.bound t v ht), fun hnum => ?_, fun y hy => ?_, fun hnum => ?_,
    fun _ => ⟨r, by simp [hxr], rfl⟩⟩
  · exact absurd hnum (Nat.succ_ne_zero _)
  · rcases mem_append.1 hy with hy | hy
    · rcases h.each y hy with ⟨a, ha, hle⟩ | ⟨hpos, -⟩
      · exact .inl ⟨a, hkeep y a ha, hle⟩
      · exact .inr ⟨Nat.succ_pos _, fun hone => by simp only at hone; omega⟩
    · exact .inr ⟨Nat.succ_pos _, fun _ => ⟨r, (mem_singleton.1 hy).trans hxr, rfl⟩⟩
  · exact absurd hnum (Nat.succ_ne_zero _)

theorem updateM_eq_update {g : Dvar → Except Stop Dvar} (h : updateM s r g = .ok s') :
    ∃ d, s' = Function.update s r d := by
  unfold updateM at h
  split at h
  · next d _ => exact ⟨d, (Except.ok.inj h).symm⟩
  · contradiction

theorem propElement_seen (h : Seen side s₀ s acc xs) (h1 : ∀ v, deref s₀ x = .int v → bpIn1WIntRange v)
    (hrun : propElement side far1 s acc x = .ok (s', acc')) : Seen side s₀ s' acc' (xs ++ [x]) := by
  unfold propElement at hrun
  cases hx : deref s x with
  | int v =>
    simp only [hx] at hrun
    split at hrun
    · contradiction
    · cases hrun
      exact h.int hx h1 _
  | dvar r =>
    simp only [hx] at hrun
    split at hrun
    · cases hcut : updateM s r (side.region (side.near (s r).first (s r).last) far1) with
      | error e => simp only [hcut, bind, Except.bind, reduceCtorEq] at hrun
      | ok s₁ =>
        simp only [hcut, bind, Except.bind] at hrun
        cases hrun
        exact h.var hx (.inr (updateM_eq_update hcut)) _
    · cases hrun
      exact h.var hx (.inl rfl) _

theorem propLoop_seen (ys : List FdTerm) : ∀ (xs : List FdTerm) (s : Store) (acc : PropAcc), Seen side s₀ s acc xs →
    (∀ y ∈ ys, ∀ v, deref s₀ y = .int v → bpIn1WIntRange v) →
    propLoop side far1 ys s acc = .ok (s', acc') → Seen side s₀ s' acc' (xs ++ ys) := by
  induction ys with
  | nil =>
    intro xs s acc h _ hrun
    cases hrun
    rwa [append_nil]
  | cons y ys ih =>
    intro xs s acc h h1 hrun
    rw [propLoop] at hrun
    cases hstep : propElement side far1 s acc y with
    | error e => simp only [hstep, bind, Except.bind, reduceCtorEq] at hrun
    | ok p =>
      obtain ⟨s₁, acc₁⟩ := p
      simp only [hstep, bind, Except.bind] at hrun
      have h' := propElement_seen h (h1 y mem_cons_self) hstep
      rw [append_cons]
      exact ih (xs ++ [y]) s₁ acc₁ h' (fun z hz => h1 z (mem_cons_of_mem _ hz)) hrun

theorem seen_start : Seen side s s ⟨0, side.nearStart, side.farStart, none⟩ [] where
  bound := fun _ _ h => h
  same := fun _ => rfl
  each := fun _ hx => absurd hx not_mem_nil
  reached := fun _ => .inl ⟨rfl, rfl⟩
  dvPtr := fun h => absurd h (lt_irrefl 0)

end

/-! ## No solution is lost -/

/-- `sol` is an assignment within the domains that makes `X1` the extremum of `Xs`. -/
structure ExtremumSolution (side : Extremum) (s : Store) (X1 : FdTerm) (Xs : List FdTerm) (sol : ℕ → ℤ) : Prop where
  mem : ∀ q, .dvar q ∈ X1 :: Xs → sol q ∈ (s q).dom
  extremum : side.Of {v | v ∈ Xs.map (FdTerm.val sol)} (X1.val sol)

section
variable {side : Extremum} {s₀ s : Store} {acc : PropAcc} {X1 x : FdTerm} {Xs : List FdTerm} {sol : ℕ → ℤ} {far1 v : ℤ}
  {r : ℕ}

theorem ExtremumSolution.not_beyond (h : ExtremumSolution side s X1 Xs sol) (hx : x ∈ Xs) :
    ¬ side.Beyond (x.val sol) (X1.val sol) :=
  (Extremum.of_iff.1 h.extremum).2 _ (mem_map_of_mem hx)

theorem ExtremumSolution.reached (h : ExtremumSolution side s X1 Xs sol) : ∃ x ∈ Xs, x.val sol = X1.val sol :=
  mem_map.1 (Extremum.of_iff.1 h.extremum).1

theorem Keeps.between {d : Dvar} (h : Keeps d v) : d.first ≤ v ∧ v ≤ d.last := ⟨h.first_le, h.le_last⟩

section
variable (hsol : ExtremumSolution side s₀ X1 Xs sol) (hinv : ∀ q, .dvar q ∈ X1 :: Xs → (s₀ q).Inv)
include hsol hinv

theorem propElement_kept
    (hk : Kept (FreeIn s₀ (X1 :: Xs)) sol s₀ s) (hx : x ∈ Xs) (hfar : ¬ side.Beyond (X1.val sol) far1)
    (hnear : 0 < acc.numOfVars → ¬ side.Beyond acc.near (X1.val sol)) :
    ∃ s' acc', propElement side far1 s acc x = .ok (s', acc') ∧ Kept (FreeIn s₀ (X1 :: Xs)) sol s₀ s' ∧
      (0 < acc'.numOfVars → ¬ side.Beyond acc'.near (X1.val sol)) := by
  have hle := hsol.not_beyond hx
  unfold propElement
  rcases hk.deref_cases hinv hsol.mem (mem_cons_of_mem _ hx) with ⟨v, hv, hval⟩ | ⟨r, hxr, hv, hfree, hkeep⟩
  · rw [hval] at hle
    simp only [hv]
    rw [if_neg (Extremum.not_beyond_trans hle hfar)]
    refine ⟨_, _, rfl, hk, fun hpos => ?_⟩
    dsimp only
    split
    · exact hle
    · exact hnear hpos
  · rw [hxr] at hle
    have hend : ¬ side.Beyond (side.near (s r).first (s r).last) (sol r) := Extremum.near_not_beyond hkeep.between
    have hcounted : ¬ side.Beyond (if side.Beyond acc.near (side.near (s r).first (s r).last) then
        side.near (s r).first (s r).last else acc.near) (X1.val sol) := by
      have hthis := Extremum.not_beyond_trans hend hle
      split
      · exact hthis
      · next hnot => exact Extremum.not_beyond_trans hnot hthis
    simp only [hv]
    split
    · obtain ⟨s', hs', hk'⟩ := hk.updateM hfree
        (Extremum.region_keeps hkeep hend (Extremum.not_beyond_trans hle hfar))
      simp only [hs', bind, Except.bind]
      exact ⟨s', _, rfl, hk', fun _ => hcounted⟩
    · exact ⟨s, _, rfl, hk, fun _ => hcounted⟩

theorem propLoop_kept (hfar : ¬ side.Beyond (X1.val sol) far1) (ys : List FdTerm) :
    ∀ (s : Store) (acc : PropAcc), (∀ y ∈ ys, y ∈ Xs) → Kept (FreeIn s₀ (X1 :: Xs)) sol s₀ s →
      (0 < acc.numOfVars → ¬ side.Beyond acc.near (X1.val sol)) →
      ∃ s' acc', propLoop side far1 ys s acc = .ok (s', acc') ∧ Kept (FreeIn s₀ (X1 :: Xs)) sol s₀ s' ∧
        (0 < acc'.numOfVars → ¬ side.Beyond acc'.near (X1.val sol)) := by
  induction ys with
  | nil => exact fun s acc _ hk hnear => ⟨s, acc, rfl, hk, hnear⟩
  | cons y ys ih =>
    intro s acc hsub hk hnear
    obtain ⟨s₁, acc₁, hstep, hk₁, hnear₁⟩ := propElement_kept hsol hinv hk (hsub y mem_cons_self) hfar hnear
    obtain ⟨s', acc', hrun, hk', hnear'⟩ := ih s₁ acc₁ (fun z hz => hsub z (mem_cons_of_mem _ hz)) hk₁ hnear₁
    refine ⟨s', acc', ?_, hk', hnear'⟩
    simp only [propLoop, hstep, bind, Except.bind]
    exact hrun

end

theorem assignAndExit_kept {live : ℕ → Prop} (hk : Kept live sol s₀ s) (hr : live r) (hv : sol r = v) :
    ∃ s', assignAndExit s r v = .ok (s', true) ∧ Kept live sol s₀ s' := by
  subst hv
  have hkeep := hk.keeps r hr
  refine ⟨Function.update s r (assignDvar (s r) (sol r)), ?_, hk.update hr ?_⟩
  · simp only [assignAndExit, hkeep.dmTrue, bind, Except.bind, if_true]
    rfl
  · exact ⟨⟨hkeep.shape.le, hkeep.shape.first_mem, hkeep.shape.last_mem, hkeep.shape.filled⟩, hkeep.enough, hkeep.mem,
      fun w hw => (DvVar.int.inj hw).symm⟩

structure Gathered (side : Extremum) (s₀ s : Store) (acc : PropAcc) (X1 : FdTerm) (Xs : List FdTerm) (sol : ℕ → ℤ) :
    Prop where
  kept : Kept (FreeIn s₀ (X1 :: Xs)) sol s₀ s
  near : 0 < acc.numOfVars → ¬ side.Beyond acc.near (X1.val sol)
  seen : Seen side s₀ s acc Xs

section
variable (h : Gathered side s₀ s acc X1 Xs sol) (hsol : ExtremumSolution side s₀ X1 Xs sol)
  (hinv : ∀ q, .dvar q ∈ X1 :: Xs → (s₀ q).Inv)
include h hsol hinv

theorem Gathered.val_eq (hx : x ∈ Xs) (hv : deref s x = .int v) : x.val sol = v := by
  rcases h.kept.deref_cases hinv hsol.mem (mem_cons_of_mem _ hx) with ⟨w, hw, hval⟩ | ⟨r, -, hr, -⟩
  · rw [hv] at hw
    rw [hval, FdTerm.int.inj hw]
  · rw [hv] at hr
    contradiction

theorem Gathered.far_eq (hnum : acc.numOfVars = 0) : X1.val sol = acc.far := by
  obtain ⟨x, hx, hxval⟩ := hsol.reached
  have hbelow : ¬ side.Beyond (X1.val sol) acc.far := by
    rcases h.seen.each x hx with ⟨v, hv, hle⟩ | ⟨hpos, -⟩
    · rwa [← hxval, h.val_eq hsol hinv hx hv]
    · omega
  rcases h.seen.reached hnum with ⟨hnil, -⟩ | ⟨y, hy, hyval⟩
  · rw [hnil] at hx
    exact absurd hx not_mem_nil
  · have hle := hsol.not_beyond hy
    rw [h.val_eq hsol hinv hy hyval] at hle
    exact Extremum.eq_of_not_beyond hbelow hle

theorem Gathered.unique_eq (hnum : acc.numOfVars = 1)
    (hshort : side.Beyond (X1.val sol) acc.far) (hr : acc.dvPtr = some r) : sol r = X1.val sol := by
  obtain ⟨x, hx, hxval⟩ := hsol.reached
  rcases h.seen.each x hx with ⟨v, hv, hle⟩ | ⟨-, hvar⟩
  · rw [← hxval, h.val_eq hsol hinv hx hv] at hshort
    exact absurd hshort hle
  · obtain ⟨q, rfl, hq⟩ := hvar hnum
    obtain rfl : q = r := Option.some.inj (hq.symm.trans hr)
    exact hxval

end

theorem propResultVar_kept {r1 : ℕ} (near1 : ℤ) (h : Gathered side s₀ s acc (.dvar r1) Xs sol)
    (hsol : ExtremumSolution side s₀ (.dvar r1) Xs sol) (hinv : ∀ q, .dvar q ∈ FdTerm.dvar r1 :: Xs → (s₀ q).Inv)
    (hfree : FreeIn s₀ (.dvar r1 :: Xs) r1) (hfar : ¬ side.Beyond (sol r1) far1) :
    ∃ s' b, propResultVar side near1 far1 r1 s acc = .ok (s', b) ∧ Kept (FreeIn s₀ (.dvar r1 :: Xs)) sol s₀ s' := by
  unfold propResultVar
  by_cases hnum : acc.numOfVars = 0
  · rw [if_pos hnum]
    obtain ⟨s', hs', hk'⟩ := assignAndExit_kept h.kept hfree (h.far_eq hsol hinv hnum)
    exact ⟨s', true, hs', hk'⟩
  · rw [if_neg hnum]
    split
    · obtain ⟨s', hs', hk'⟩ := h.kept.updateM hfree
        (Extremum.region_keeps (h.kept.keeps r1 hfree) (h.near (Nat.pos_of_ne_zero hnum)) hfar)
      refine ⟨s', false, ?_, hk'⟩
      simp only [hs', bind, Except.bind]
      rfl
    · exact ⟨s, false, rfl, h.kept⟩

theorem propResultInt_kept (h : Gathered side s₀ s acc X1 Xs sol) (hsol : ExtremumSolution side s₀ X1 Xs sol)
    (hinv : ∀ q, .dvar q ∈ X1 :: Xs → (s₀ q).Inv) (hX1 : X1.val sol = v) :
    ∃ s' b, propResultInt side v s acc = .ok (s', b) ∧ Kept (FreeIn s₀ (X1 :: Xs)) sol s₀ s' := by
  subst hX1
  unfold propResultInt
  by_cases hnum : acc.numOfVars = 0
  · rw [if_pos hnum, if_pos (h.far_eq hsol hinv hnum)]
    exact ⟨s, false, rfl, h.kept⟩
  rw [if_neg hnum]
  by_cases hone : acc.numOfVars = 1 ∧ side.Beyond (X1.val sol) acc.far
  · rw [if_pos hone]
    obtain ⟨r, hmem, hr⟩ := h.seen.dvPtr (by omega)
    have hval := h.unique_eq hsol hinv hone.1 hone.2 hr
    simp only [hr]
    by_cases hvar : (s r).var = .susp
    · rw [if_pos hvar]
      have hfree : FreeIn s₀ (X1 :: Xs) r := by
        rcases h.kept.deref_cases hinv hsol.mem (mem_cons_of_mem _ hmem) with ⟨w, hw, -⟩ | ⟨q, hq, -, hfree, -⟩
        · simp only [deref, hvar, reduceCtorEq] at hw
        · rwa [FdTerm.dvar.inj hq]
      obtain ⟨s', hs', hk'⟩ := assignAndExit_kept h.kept hfree hval
      exact ⟨s', true, hs', hk'⟩
    · rw [if_neg hvar]
      exact ⟨s, false, rfl, h.kept⟩
  · rw [if_neg hone]
    exact ⟨s, false, rfl, h.kept⟩

/-- The integers of the vector are of one word, as every tagged integer is. -/
def OneWord (s : Store) (Xs : List FdTerm) : Prop := ∀ x ∈ Xs, ∀ v, deref s x = .int v → bpIn1WIntRange v

theorem propExtremum_kept (hinv : ∀ q, .dvar q ∈ X1 :: Xs → (s q).Inv) (h1 : OneWord s Xs)
    (hsol : ExtremumSolution side s X1 Xs sol) :
    ∃ s' b, propExtremum side s X1 Xs = .ok (s', b) ∧ Preserves sol s s' := by
  have hstart := freeIn_kept hinv hsol.mem
  -- the loop, for the far end of the result
  have hloop : ∀ far1, ¬ side.Beyond (X1.val sol) far1 →
      ∃ s' acc', propLoop side far1 Xs s ⟨0, side.nearStart, side.farStart, none⟩ = .ok (s', acc') ∧
        Gathered side s s' acc' X1 Xs sol := by
    intro far1 hfar
    obtain ⟨s', acc', hrun, hk', hnear⟩ := propLoop_kept hsol hinv hfar Xs s
      ⟨0, side.nearStart, side.farStart, none⟩ (fun y hy => hy) hstart fun hpos => absurd hpos (lt_irrefl 0)
    exact ⟨s', acc', hrun, hk', hnear, propLoop_seen Xs [] s _ seen_start h1 hrun⟩
  unfold propExtremum
  rcases hstart.deref_cases hinv hsol.mem (t := X1) mem_cons_self with ⟨v, hv, hval⟩ | ⟨r1, rfl, hv, hfree, hkeep⟩
  · obtain ⟨s₁, acc, hrun, hg⟩ := hloop v (by rw [hval]; exact Extremum.beyond_irrefl)
    obtain ⟨s', b, hs', hk'⟩ := propResultInt_kept hg hsol hinv hval
    refine ⟨s', b, ?_, hk'.preserves⟩
    simp only [hv, hrun, bind, Except.bind]
    exact hs'
  · have hfar : ¬ side.Beyond (sol r1) (side.far (s r1).first (s r1).last) := Extremum.not_beyond_far hkeep.between
    have hlt := (hinv r1 mem_cons_self).susp hfree.2
    obtain ⟨s₁, acc, hrun, hg⟩ := hloop _ hfar
    obtain ⟨s', b, hs', hk'⟩ := propResultVar_kept (side.near (s r1).first (s r1).last) hg hsol hinv hfree hfar
    refine ⟨s', b, ?_, hk'.preserves⟩
    simp only [hv, hrun, bind, Except.bind, if_pos hlt.ne]
    exact hs'

end

/-! ## An exit leaves solutions only -/

section
variable {side : Extremum} {s₀ s s' : Store} {acc : PropAcc} {X1 x : FdTerm} {Xs : List FdTerm} {sol : ℕ → ℤ} {v : ℤ}
  {r : ℕ}

theorem val_of_deref (hmem : ∀ q, x = .dvar q → sol q ∈ (s q).dom) (h : deref s x = .int v) : x.val sol = v := by
  cases x with
  | int w => exact FdTerm.int.inj h
  | dvar q =>
    simp only [deref] at h
    split at h
    · next w hw =>
        have hin := hmem q rfl
        rw [Dvar.dom_int hw, Finset.mem_singleton] at hin
        exact hin.trans (FdTerm.int.inj h)
    · contradiction

theorem assignAndExit_ok {b : Bool} (h : assignAndExit s r v = .ok (s', b)) :
    s' = Function.update s r (assignDvar (s r) v) := by
  unfold assignAndExit at h
  cases hd : dmTrue (s r) v with
  | error e => simp only [hd, bind, Except.bind, reduceCtorEq] at h
  | ok c =>
    simp only [hd, bind, Except.bind] at h
    split at h
    · cases h
      rfl
    · contradiction

theorem of_assigned {s₁ : Store} (hr : deref s₁ (.dvar r) = .dvar r)
    (hs' : s' = Function.update s₁ r (assignDvar (s₁ r) v)) (hmem : ∀ q, .dvar q ∈ X1 :: Xs → sol q ∈ (s' q).dom) :
    (.dvar r ∈ X1 :: Xs → sol r = v) ∧ ∀ x ∈ X1 :: Xs, ∀ w, deref s₁ x = .int w → x.val sol = w := by
  subst hs'
  constructor
  · intro hin
    have hrv := hmem r hin
    rwa [Function.update_self, Dvar.dom_int rfl, Finset.mem_singleton] at hrv
  · intro x hx w hw
    exact val_of_deref (fun q hq => hmem q (hq ▸ hx)) (deref_update_of_int hw hr)

theorem propResultVar_exit {r1 : ℕ} {near1 far1 : ℤ} (hseen : Seen side s₀ s acc Xs) (hne : Xs ≠ [])
    (hv : deref s₀ (.dvar r1) = .dvar r1) (hrun : propResultVar side near1 far1 r1 s acc = .ok (s', true))
    (hmem : ∀ q, .dvar q ∈ FdTerm.dvar r1 :: Xs → sol q ∈ (s' q).dom) :
    side.Of {v | v ∈ Xs.map (FdTerm.val sol)} (sol r1) := by
  unfold propResultVar at hrun
  split at hrun
  · next hnum =>
      rw [← hseen.same hnum] at hv
      obtain ⟨hr, hint⟩ := of_assigned hv (assignAndExit_ok hrun) hmem
      rw [hr mem_cons_self, Extremum.of_iff]
      constructor
      · rcases hseen.reached hnum with ⟨hnil, -⟩ | ⟨y, hy, hyval⟩
        · exact absurd hnil hne
        · exact mem_map.2 ⟨y, hy, hint y (mem_cons_of_mem _ hy) _ hyval⟩
      · intro a ha
        obtain ⟨x, hx, rfl⟩ := mem_map.1 ha
        rcases hseen.each x hx with ⟨w, hw, hle⟩ | ⟨hpos, -⟩
        · rwa [hint x (mem_cons_of_mem _ hx) w hw]
        · omega
  · split at hrun
    · cases hcut : updateM s r1 (side.region acc.near far1) with
      | error e => simp only [hcut, bind, Except.bind, reduceCtorEq] at hrun
      | ok s₁ =>
        simp only [hcut, bind, Except.bind] at hrun
        cases hrun
    · cases hrun

theorem propResultInt_exit (hseen : Seen side s₀ s acc Xs) (hv : deref s₀ X1 = .int v)
    (hrun : propResultInt side v s acc = .ok (s', true)) (hmem : ∀ q, .dvar q ∈ X1 :: Xs → sol q ∈ (s' q).dom) :
    side.Of {v | v ∈ Xs.map (FdTerm.val sol)} (X1.val sol) := by
  unfold propResultInt at hrun
  split at hrun
  · split at hrun <;> cases hrun
  split at hrun
  · next hnum hone =>
      obtain ⟨r, hmem', hr⟩ := hseen.dvPtr (by omega)
      simp only [hr] at hrun
      split at hrun
      · next hvar =>
          obtain ⟨hrv, hint⟩ := of_assigned (by simp only [deref, hvar]) (assignAndExit_ok hrun) hmem
          have hrv := hrv (mem_cons_of_mem _ hmem')
          rw [hint X1 mem_cons_self v (hseen.bound X1 v hv), Extremum.of_iff]
          refine ⟨mem_map.2 ⟨_, hmem', hrv⟩, fun a ha => ?_⟩
          obtain ⟨x, hx, rfl⟩ := mem_map.1 ha
          rcases hseen.each x hx with ⟨w, hw, hle⟩ | ⟨-, hunique⟩
          · rw [hint x (mem_cons_of_mem _ hx) w hw]
            exact Extremum.not_beyond_trans hle hone.2.not_beyond
          · obtain ⟨q, rfl, hq⟩ := hunique hone.1
            obtain rfl : q = r := Option.some.inj (hq.symm.trans hr)
            simp only [FdTerm.val, hrv]
            exact Extremum.beyond_irrefl
      · cases hrun
  · cases hrun

/-- When a call says that the propagator is done, every assignment from the domains it leaves is a solution. -/
theorem propExtremum_exit (hne : Xs ≠ []) (hinv : ∀ q, X1 = .dvar q → (s₀ q).Inv) (h1 : OneWord s₀ Xs)
    (hrun : propExtremum side s₀ X1 Xs = .ok (s', true)) (hmem : ∀ q, .dvar q ∈ X1 :: Xs → sol q ∈ (s' q).dom) :
    side.Of {v | v ∈ Xs.map (FdTerm.val sol)} (X1.val sol) := by
  unfold propExtremum at hrun
  have hloop : ∀ far1 s acc, propLoop side far1 Xs s₀ ⟨0, side.nearStart, side.farStart, none⟩ = .ok (s, acc) →
      Seen side s₀ s acc Xs := fun far1 s acc h => propLoop_seen Xs [] s₀ _ seen_start h1 h
  rcases deref_inv hinv with ⟨v, hv, -⟩ | ⟨r1, rfl, hv, hvar, hr1, -⟩
  · simp only [hv] at hrun
    cases hl : propLoop side v Xs s₀ ⟨0, side.nearStart, side.farStart, none⟩ with
    | error e => simp only [hl, bind, Except.bind, reduceCtorEq] at hrun
    | ok p =>
      simp only [hl, bind, Except.bind] at hrun
      exact propResultInt_exit (hloop _ _ _ hl) hv hrun hmem
  · simp only [hv] at hrun
    cases hl : propLoop side (side.far (s₀ r1).first (s₀ r1).last) Xs s₀ ⟨0, side.nearStart, side.farStart, none⟩ with
    | error e => simp only [hl, bind, Except.bind, reduceCtorEq] at hrun
    | ok p =>
      simp only [hl, bind, Except.bind, if_pos (hr1.susp hvar).ne] at hrun
      exact propResultVar_exit (hloop _ _ _ hl) hne hv hrun hmem

end

/-! ## The two propagators -/

/-- What a propagator of the constraint `rel` on the values of `Xs` and of `X1` promises: a solution within the domains
is kept, and an exit leaves solutions only. -/
structure SoundCall (rel : Set ℤ → ℤ → Prop) (s : Store) (X1 : FdTerm) (Xs : List FdTerm)
    (result : Except Stop (Store × Bool)) : Prop where
  keeps : ∀ sol : ℕ → ℤ, (∀ q, .dvar q ∈ X1 :: Xs → sol q ∈ (s q).dom) →
    rel {v | v ∈ Xs.map (FdTerm.val sol)} (X1.val sol) → ∃ s' b, result = .ok (s', b) ∧ Preserves sol s s'
  exit : ∀ s', result = .ok (s', true) → ∀ sol : ℕ → ℤ, (∀ q, .dvar q ∈ X1 :: Xs → sol q ∈ (s' q).dom) →
    rel {v | v ∈ Xs.map (FdTerm.val sol)} (X1.val sol)

theorem propExtremum_sound (side : Extremum) {s : Store} {X1 : FdTerm} {Xs : List FdTerm} (hne : Xs ≠ [])
    (hinv : ∀ q, .dvar q ∈ X1 :: Xs → (s q).Inv) (h1 : OneWord s Xs) :
    SoundCall side.Of s X1 Xs (propExtremum side s X1 Xs) where
  keeps := fun _ hmem hof => propExtremum_kept hinv h1 ⟨hmem, hof⟩
  exit := fun _ hrun _ hmem =>
    propExtremum_exit hne (fun q hq => hinv q (hq ▸ mem_cons_self)) h1 hrun hmem

/-- No call loses a value of a solution or fails while there is one, and one that sets `SUSP_EXIT` leaves domains from
which every assignment is a solution. The vector is not empty, or there would be no extremum. -/
theorem bPropMaxC_bPropMinC_sound (s : Store) (X1 : FdTerm) (Xs : List FdTerm) (hne : Xs ≠ [])
    (hinv : ∀ q, .dvar q ∈ X1 :: Xs → (s q).Inv) (h1 : OneWord s Xs) :
    SoundCall IsGreatest s X1 Xs (bPropMaxC s X1 Xs) ∧ SoundCall IsLeast s X1 Xs (bPropMinC s X1 Xs) := by
  constructor
  · exact propExtremum_sound .max hne hinv h1
  · exact propExtremum_sound .min hne hinv h1

theorem bPropMaxC_bPropMinC_sound_three :
    SoundCall IsGreatest (fun _ => auxCreateDomainVar 1 5) (.dvar 0) [.int 3, .dvar 1]
        (bPropMaxC (fun _ => auxCreateDomainVar 1 5) (.dvar 0) [.int 3, .dvar 1]) ∧
      SoundCall IsLeast (fun _ => auxCreateDomainVar 1 5) (.dvar 0) [.int 3, .dvar 1]
        (bPropMinC (fun _ => auxCreateDomainVar 1 5) (.dvar 0) [.int 3, .dvar 1]) := by
  refine bPropMaxC_bPropMinC_sound _ _ _ (cons_ne_nil _ _) (fun q _ => auxCreateDomainVar_inv (by decide)) ?_
  intro x hx v hv
  simp only [mem_cons, not_mem_nil, or_false] at hx
  rcases hx with rfl | rfl
  · cases hv
    decide
  · cases hv

end Picat
