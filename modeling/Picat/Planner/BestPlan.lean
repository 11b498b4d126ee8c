import Mathlib.Algebra.Order.Group.Int
import Mathlib.Tactic.Set

/-!
# `best_plan` and `best_plan_bb`

* `plannerRun_meets_iff` : a call is right unless the map has a plan of its state that costs more than its limit.
-/

namespace Picat.Planner

open Function

variable {World State Plan : Type} [DecidableEq State]

/-! ## Bounded search -/

structure Found (State Plan : Type) where
  plan : Plan
  cost : ℕ
  finS : State

/-- What a search leaves behind, `'_$planner_explored_depth'` and its tables, and the plan if it has found one. -/
structure Answer (World State Plan : Type) where
  found : Option (Found State Plan)
  exploredDepth : ℤ
  world : World

def noDepth : ℤ := 268435455

/-- `picat_plan` finds a plan within the bound when there is one. Otherwise the explored depth lies above the bound, and
no plan is cheaper. -/
structure CorrectSearch (plans : State → Plan → ℕ → Prop) (picatPlan : World → State → ℤ → Answer World State Plan) :
    Prop where
  found : ∀ w s bound, ∀ f ∈ (picatPlan w s bound).found, plans s f.plan f.cost ∧ (f.cost : ℤ) ≤ bound
  complete : ∀ w s bound, (picatPlan w s bound).found = none → ∀ p c, plans s p c → bound < c
  depth : ∀ w s bound, (picatPlan w s bound).found = none → (picatPlan w s bound).exploredDepth = noDepth ∨
    bound < (picatPlan w s bound).exploredDepth ∧ ∀ p c, plans s p c → (picatPlan w s bound).exploredDepth ≤ c

/-! ## The planner -/

/-- `best` has the entries `current_best_plan(S)`, `current_best_plan_cost(S)` and `current_best_plan_fin_state(S)`, put
together only, and `lowerBound` has `current_lower_bound(S)`. -/
structure Memory (World State Plan : Type) where
  best : State → Option (Found State Plan)
  lowerBound : State → Option ℤ
  exploredDepth : ℤ
  world : World

section Calls
variable (picatPlan : World → State → ℤ → Answer World State Plan)

/-- `call_picat_plan`, which tells whether the search has succeeded. -/
def callPicatPlan (s : State) (bound : ℤ) (m : Memory World State Plan) : Bool × Memory World State Plan :=
  let a := picatPlan m.world s bound
  match a.found with
  | some f => (true, ⟨update m.best s (some f), m.lowerBound, a.exploredDepth, a.world⟩)
  | none => (false, ⟨m.best, m.lowerBound, a.exploredDepth, a.world⟩)

/-- The bound after a search with the bound `level` that has failed. -/
def nextLevel (level depth : ℤ) : ℤ := if depth = noDepth then level + 1 else depth

def bestPlanDownward (limit : ℤ) (s : State) :
    ℕ → ℤ → Memory World State Plan → Option (Option (Found State Plan) × Memory World State Plan)
  | 0, _, _ => none
  | fuel + 1, level, m =>
    let m := (callPicatPlan picatPlan s level m).2
    match m.best s with
    | some f => some (some f, m)
    | none =>
      let level1 := nextLevel level m.exploredDepth
      if level1 ≤ limit then bestPlanDownward limit s fuel level1 m else some (none, m)

def loopBestPlanBb (s : State) :
    ℕ → ℤ → Memory World State Plan → Option (Option (Found State Plan) × Memory World State Plan)
  | 0, _, _ => none
  | fuel + 1, limit, m =>
    match callPicatPlan picatPlan s limit m with
    | (true, m) =>
      match m.best s with
      | some f => loopBestPlanBb s fuel (f.cost - 1) m
      | none => none
    | (false, m) => some (m.best s, m)

def bestPlan (s : State) (limit : ℕ) (m : Memory World State Plan) :
    Option (Option (Found State Plan) × Memory World State Plan) :=
  bestPlanDownward picatPlan limit s (limit + 2) 0 m

def bestPlanBb (s : State) (limit : ℕ) (m : Memory World State Plan) :
    Option (Option (Found State Plan) × Memory World State Plan) :=
  loopBestPlanBb picatPlan s (limit + 2) limit m

/-- A call of `best_plan_bb` if `bb` is set, and of `best_plan` otherwise. -/
def planCall (bb : Bool) (s : State) (limit : ℕ) (m : Memory World State Plan) :
    Option (Option (Found State Plan) × Memory World State Plan) :=
  if bb then bestPlanBb picatPlan s limit m else bestPlan picatPlan s limit m

/-- The memory after a sequence of calls, from a map without entries on. -/
inductive PlannerRun : Memory World State Plan → Prop
  | start (depth : ℤ) (w : World) : PlannerRun ⟨fun _ => none, fun _ => none, depth, w⟩
  | call {m m' : Memory World State Plan} {r : Option (Found State Plan)} (h : PlannerRun m) (bb : Bool) (s : State)
      (limit : ℕ) (hcall : planCall picatPlan bb s limit m = some (r, m')) : PlannerRun m'

end Calls

/-! ## What a call has to give -/

section Meets
variable (plans : State → Plan → ℕ → Prop)

def IsBest (s : State) (f : Found State Plan) : Prop := plans s f.plan f.cost ∧ ∀ p c, plans s p c → f.cost ≤ c

/-- A best plan if there is one within the limit, and none otherwise. -/
def Meets (s : State) (limit : ℕ) : Option (Found State Plan) → Prop
  | some f => IsBest plans s f ∧ f.cost ≤ limit
  | none => ∀ p c, plans s p c → limit < c

def OptimalAt (s : State) (m : Memory World State Plan) : Prop := ∀ f, m.best s = some f → IsBest plans s f

end Meets

variable {plans : State → Plan → ℕ → Prop} {picatPlan : World → State → ℤ → Answer World State Plan}
  {s : State} {m : Memory World State Plan}

omit [DecidableEq State] in
theorem CorrectSearch.nextLevel (hsearch : CorrectSearch plans picatPlan) {w : World} {bound : ℤ}
    (hnone : (picatPlan w s bound).found = none) :
    (∀ p c, plans s p c → bound < c) ∧ bound < nextLevel bound (picatPlan w s bound).exploredDepth ∧
      ∀ p c, plans s p c → nextLevel bound (picatPlan w s bound).exploredDepth ≤ c := by
  have habove := hsearch.complete w s bound hnone
  refine ⟨habove, ?_⟩
  unfold Planner.nextLevel
  split_ifs with hdepth
  · exact ⟨Int.lt_add_one_of_le le_rfl, fun p c hplan => habove p c hplan⟩
  · exact (hsearch.depth w s bound hnone).resolve_left hdepth

/-- A search either puts a plan within the bound into the map or leaves the map as it is. -/
theorem callPicatPlan_cases (hsearch : CorrectSearch plans picatPlan) (s : State) (bound : ℤ) (m : Memory World State Plan) :
    (∃ f depth w, callPicatPlan picatPlan s bound m = (true, ⟨update m.best s (some f), m.lowerBound, depth, w⟩) ∧
      (picatPlan m.world s bound).found ≠ none ∧ plans s f.plan f.cost ∧ (f.cost : ℤ) ≤ bound) ∨
    (callPicatPlan picatPlan s bound m = (false, ⟨m.best, m.lowerBound, (picatPlan m.world s bound).exploredDepth,
      (picatPlan m.world s bound).world⟩) ∧ (picatPlan m.world s bound).found = none ∧
      (∀ p c, plans s p c → bound < c) ∧ bound < nextLevel bound (picatPlan m.world s bound).exploredDepth ∧
      ∀ p c, plans s p c → nextLevel bound (picatPlan m.world s bound).exploredDepth ≤ c) := by
  unfold callPicatPlan
  cases hfound : (picatPlan m.world s bound).found with
  | some f =>
    obtain ⟨hplan, hcost⟩ := hsearch.found m.world s bound f hfound
    exact .inl ⟨f, (picatPlan m.world s bound).exploredDepth, (picatPlan m.world s bound).world,
      by simp only [hfound], Option.some_ne_none f, hplan, hcost⟩
  | none => exact .inr ⟨by simp only [hfound], rfl, hsearch.nextLevel hfound⟩

omit [DecidableEq State] in
theorem IsBest.of_le {f : Found State Plan} {bound : ℤ} (hplan : plans s f.plan f.cost) (hcost : (f.cost : ℤ) ≤ bound)
    (hbound : ∀ p c, plans s p c → bound ≤ c) : IsBest plans s f :=
  ⟨hplan, fun p c h => Int.ofNat_le.1 (hcost.trans (hbound p c h))⟩

theorem optimalAt_update {f : Found State Plan} (hf : IsBest plans s f) {lowerBound : State → Option ℤ} {depth : ℤ}
    {w : World} : OptimalAt plans s ⟨update m.best s (some f), lowerBound, depth, w⟩ := by
  intro g hg
  change update m.best s (some f) s = some g at hg
  rw [update_self, Option.some.injEq] at hg
  rw [← hg]
  exact hf

/-- A best plan if there is one within the limit, and otherwise the entry that was in the map. -/
structure Gives (plans : State → Plan → ℕ → Prop) (s : State) (limit : ℤ) (m : Memory World State Plan)
    (r : Option (Found State Plan)) : Prop where
  within : (∃ p c, plans s p c ∧ (c : ℤ) ≤ limit) → ∃ f, r = some f ∧ IsBest plans s f
  above : (∀ p c, plans s p c → limit < c) → r = m.best s

omit [DecidableEq State] in
/-- The entry that was in the map is a plan that costs more than the limit, unless there is one within the limit. -/
theorem Gives.meets_iff {limit : ℕ} {r : Option (Found State Plan)} (h : Gives plans s limit m r)
    (hopt : OptimalAt plans s m) :
    Meets plans s limit r ↔ ∀ f, m.best s = some f → f.cost ≤ limit := by
  by_cases hplan : ∃ p c, plans s p c ∧ (c : ℤ) ≤ limit
  · obtain ⟨f, rfl, hbest⟩ := h.within hplan
    obtain ⟨p, c, hpc, hc⟩ := hplan
    have hle := hbest.2 p c hpc
    refine ⟨fun _ g hg => ?_, fun _ => ⟨hbest, by omega⟩⟩
    have hle' := (hopt g hg).2 p c hpc
    omega
  · have habove : ∀ p c, plans s p c → (limit : ℤ) < c := fun p c hpc => by
      rw [not_exists] at hplan
      exact lt_of_not_ge fun hc => hplan p ⟨c, hpc, hc⟩
    rw [h.above habove]
    cases hentry : m.best s with
    | none => exact ⟨fun _ f hf => absurd hf (Option.some_ne_none f).symm, fun _ p c hpc => Int.ofNat_lt.1 (habove p c hpc)⟩
    | some f =>
      refine ⟨fun hmeets g hg => ?_, fun hle => ⟨hopt f hentry, hle f rfl⟩⟩
      rw [Option.some.injEq] at hg
      rw [← hg]
      exact hmeets.2

section
variable (hsearch : CorrectSearch plans picatPlan)
include hsearch

/-- As long as no plan is cheaper than the level, the first plan that is found is a best one. -/
theorem bestPlanDownward_spec {limit : ℤ} {fuel : ℕ} {level : ℤ}
    (hopt : OptimalAt plans s m) (hlevel : ∀ p c, plans s p c → level ≤ c) (hle : level ≤ limit)
    (hfuel : (limit - level).toNat < fuel) :
    ∃ r m', bestPlanDownward picatPlan limit s fuel level m = some (r, m') ∧ OptimalAt plans s m' ∧
      (∀ t, t ≠ s → m'.best t = m.best t) ∧ Gives plans s limit m r := by
  induction fuel generalizing level m with
  | zero => exact absurd hfuel (Nat.not_lt_zero _)
  | succ fuel ih =>
    unfold bestPlanDownward
    rcases callPicatPlan_cases hsearch s level m with
      ⟨f, depth, w, hcall, -, hplan, hcost⟩ | ⟨hcall, -, -, hlt, hnext⟩
    · have hbest := IsBest.of_le hplan hcost hlevel
      simp only [hcall, update_self]
      refine ⟨_, _, rfl, optimalAt_update hbest, fun t hts => update_of_ne hts .., fun _ => ⟨f, rfl, hbest⟩,
        fun habove => ?_⟩
      exact absurd (habove f.plan f.cost hplan) (not_lt.2 (hcost.trans hle))
    · simp only [hcall]
      cases hentry : m.best s with
      | some f => exact ⟨_, _, rfl, hopt, fun _ _ => rfl, fun _ => ⟨f, rfl, hopt f hentry⟩, fun _ => hentry.symm⟩
      | none =>
        simp only
        split_ifs with hlimit
        · obtain ⟨r, m', hrun, hopt', hframe, hgives⟩ := @ih ⟨m.best, m.lowerBound,
            (picatPlan m.world s level).exploredDepth, (picatPlan m.world s level).world⟩ _ hopt hnext hlimit (by omega)
          exact ⟨r, m', hrun, hopt', hframe, hgives.within, hgives.above⟩
        · refine ⟨none, _, rfl, hopt, fun _ _ => rfl, fun ⟨p, c, hplan, hc⟩ => ?_, fun _ => hentry.symm⟩
          exact absurd ((hnext p c hplan).trans hc) hlimit

/-- The entry of the state is a plan, and no cheaper one lies above the limit; so the last entry is a best plan. -/
theorem loopBestPlanBb_spec {fuel : ℕ} {limit : ℤ}
    (hentry : ∀ f, m.best s = some f → plans s f.plan f.cost ∧ ∀ p c, plans s p c → limit < c → f.cost ≤ c)
    (hlimit : -1 ≤ limit) (hfuel : (limit + 1).toNat < fuel) :
    ∃ r m', loopBestPlanBb picatPlan s fuel limit m = some (r, m') ∧ OptimalAt plans s m' ∧
      (∀ t, t ≠ s → m'.best t = m.best t) ∧ Gives plans s limit m r := by
  induction fuel generalizing limit m with
  | zero => exact absurd hfuel (Nat.not_lt_zero _)
  | succ fuel ih =>
    unfold loopBestPlanBb
    rcases callPicatPlan_cases hsearch s limit m with
      ⟨f, depth, w, hcall, -, hplan, hcost⟩ | ⟨hcall, -, habove, -⟩
    · simp only [hcall, update_self]
      have hentry' : ∀ g, update m.best s (some f) s = some g →
          plans s g.plan g.cost ∧ ∀ p c, plans s p c → (f.cost : ℤ) - 1 < c → g.cost ≤ c := fun g hg => by
        rw [update_self, Option.some.injEq] at hg
        rw [← hg]
        exact ⟨hplan, fun p c _ hc => by omega⟩
      obtain ⟨r, m', hrun, hopt, hframe, hgives⟩ := @ih ⟨update m.best s (some f), m.lowerBound, depth, w⟩
        (f.cost - 1) hentry' (by omega) (by omega)
      refine ⟨r, m', hrun, hopt, fun t hts => (hframe t hts).trans (update_of_ne hts ..), fun _ => ?_,
        fun habove => absurd (habove f.plan f.cost hplan) (not_lt.2 hcost)⟩
      by_cases hcheaper : ∃ p c, plans s p c ∧ (c : ℤ) ≤ f.cost - 1
      · exact hgives.within hcheaper
      · -- no plan is cheaper than the one just found, which is in the map
        rw [not_exists] at hcheaper
        have hleast : ∀ p c, plans s p c → ((f.cost : ℤ) - 1) < c := fun p c hpc =>
          lt_of_not_ge fun hc => hcheaper p ⟨c, hpc, hc⟩
        refine ⟨f, (hgives.above hleast).trans (update_self ..), hplan, fun p c hpc => ?_⟩
        have hc := hleast p c hpc
        omega
    · simp only [hcall]
      have hbest : ∀ f, m.best s = some f → IsBest plans s f := fun f hf =>
        ⟨(hentry f hf).1, fun p c hpc => (hentry f hf).2 p c hpc (habove p c hpc)⟩
      exact ⟨_, _, rfl, hbest, fun _ _ => rfl, fun ⟨p, c, hplan, hc⟩ => absurd (habove p c hplan) (not_lt.2 hc),
        fun _ => rfl⟩

theorem planCall_spec (hopt : OptimalAt plans s m) (bb : Bool) (limit : ℕ) :
    ∃ r m', planCall picatPlan bb s limit m = some (r, m') ∧ OptimalAt plans s m' ∧
      (∀ t, t ≠ s → m'.best t = m.best t) ∧ Gives plans s limit m r := by
  cases bb with
  | true =>
    refine loopBestPlanBb_spec hsearch (fun f hf => ?_) (by omega) (by omega)
    exact ⟨(hopt f hf).1, fun p c hpc _ => (hopt f hf).2 p c hpc⟩
  | false => exact bestPlanDownward_spec hsearch hopt (fun p c _ => Int.natCast_nonneg c) (by omega) (by omega)

theorem PlannerRun.optimal (h : PlannerRun picatPlan m) (s : State) : OptimalAt plans s m := by
  induction h generalizing s with
  | start depth w => exact fun f hf => absurd hf (Option.some_ne_none f).symm
  | @call m m' r h bb t limit hcall ih =>
    obtain ⟨r', m'', hcall', hopt, hframe, -⟩ := planCall_spec hsearch (ih t) bb limit
    rw [hcall, Option.some.injEq, Prod.mk.injEq] at hcall'
    rw [hcall'.2]
    by_cases hst : s = t
    · exact hst ▸ hopt
    · exact fun f hf => ih s f ((hframe s hst).symm.trans hf)

end

/-- After every sequence of calls, the next one ends, and gives a best plan within its limit if there is one and none
otherwise, just when an entry of its state in the map costs no more than the limit. -/
theorem plannerRun_meets_iff (hsearch : CorrectSearch plans picatPlan) (h : PlannerRun picatPlan m) (bb : Bool) (s : State)
    (limit : ℕ) :
    ∃ r m', planCall picatPlan bb s limit m = some (r, m') ∧
      (Meets plans s limit r ↔ ∀ f, m.best s = some f → f.cost ≤ limit) := by
  obtain ⟨r, m', hcall, -, -, hgives⟩ := planCall_spec hsearch (h.optimal hsearch s) bb limit
  exact ⟨r, m', hcall, hgives.meets_iff (h.optimal hsearch s)⟩

/-! ## A second call with a lower limit -/

def onePlan (cost : ℕ) (_ : Unit) (_ : Unit) (c : ℕ) : Prop := c = cost

def onePlanSearch (cost : ℕ) (w s : Unit) (bound : ℤ) : Answer Unit Unit Unit :=
  ⟨if (cost : ℤ) ≤ bound then some ⟨(), cost, s⟩ else none, noDepth, w⟩

theorem onePlanSearch_correct (cost : ℕ) : CorrectSearch (onePlan cost) (onePlanSearch cost) where
  found w s bound f hf := by
    unfold onePlanSearch at hf
    simp only at hf
    split_ifs at hf with hbound
    · rw [Option.mem_some_iff] at hf
      rw [← hf]
      exact ⟨rfl, hbound⟩
    · exact absurd hf (Option.not_mem_none f)
  complete w s bound hnone p c hc := by
    unfold onePlanSearch at hnone
    simp only at hnone
    split_ifs at hnone with hbound
    rw [show c = cost from hc]
    exact not_le.1 hbound
  depth _ _ _ _ := .inl rfl

theorem plannerRun_meets_iff_one_plan : ∃ r m',
    planCall (onePlanSearch 5) false () 10 ⟨fun _ => none, fun _ => none, 0, ()⟩ = some (r, m') ∧
      (Meets (onePlan 5) () 10 r ↔ ∀ f : Found Unit Unit, (none : Option (Found Unit Unit)) = some f → f.cost ≤ 10) :=
  plannerRun_meets_iff (onePlanSearch_correct 5) (.start 0 ()) false () 10

/-- A call with the limit 3 after one with the limit 10 gives the plan of cost 5. -/
theorem bestPlan_stale_entry : ∃ m m' : Memory Unit Unit Unit, PlannerRun (onePlanSearch 5) m ∧
      planCall (onePlanSearch 5) false () 3 m = some (some ⟨(), 5, ()⟩, m') ∧ ¬Meets (onePlan 5) () 3 (some ⟨(), 5, ()⟩) := by
  have hfirst : planCall (onePlanSearch 5) false () 10 ⟨fun _ => none, fun _ => none, 0, ()⟩ =
      some (some ⟨(), 5, ()⟩, ⟨update (fun _ => none) () (some ⟨(), 5, ()⟩), fun _ => none, noDepth, ()⟩) := rfl
  refine ⟨_, _, .call (.start 0 ()) false () 10 hfirst, rfl, fun h => ?_⟩
  exact absurd h.2 (by decide)

end Picat.Planner

/-! # `best_plan_bin` -/

namespace Picat.Planner

open Function

variable {World State Plan : Type} [DecidableEq State]

section Calls
variable (picatPlan : World → State → ℤ → Answer World State Plan)

def loopBestPlanBin (s : State) :
    ℕ → ℤ → ℤ → Memory World State Plan → Option (Option (Found State Plan) × Memory World State Plan)
  | 0, _, _, _ => none
  | fuel + 1, lower, upper, m =>
    if lower ≤ upper then
      let newLimit := lower + (upper - lower) / 2
      match callPicatPlan picatPlan s newLimit m with
      | (true, m) =>
        match m.best s with
        | some f => loopBestPlanBin s fuel lower (f.cost - 1) m
        | none => none
      | (false, m) => loopBestPlanBin s fuel (newLimit + 1) upper m
    else some (m.best s, m)

/-- With the bounds of the binary search, and the steps that it needs for them. -/
def startBin (s : State) (f : Found State Plan) (m : Memory World State Plan) :
    Option (Option (Found State Plan) × Memory World State Plan) :=
  let lower := (m.lowerBound s).getD 0
  let upper := (f.cost : ℤ) - 1
  loopBestPlanBin picatPlan s ((upper - lower + 1).toNat + 1) lower upper m

def loopBestPlanDownwardBin (limit : ℤ) (s : State) :
    ℕ → ℤ → Memory World State Plan → Option (Option (Found State Plan) × Memory World State Plan)
  | 0, _, _ => none
  | fuel + 1, level, m =>
    let m := if level ≤ limit then (callPicatPlan picatPlan s level m).2 else m
    match m.best s with
    | some f => startBin picatPlan s f m
    | none =>
      let lower := nextLevel level m.exploredDepth
      let m := ⟨m.best, update m.lowerBound s (some lower), m.exploredDepth, m.world⟩
      if lower < limit then
        let level1 := 2 * lower
        loopBestPlanDownwardBin limit s fuel (if level1 > limit then limit else level1) m
      else some (none, m)

def bestPlanBin (s : State) (limit : ℕ) (m : Memory World State Plan) :
    Option (Option (Found State Plan) × Memory World State Plan) :=
  loopBestPlanDownwardBin picatPlan limit s (limit + 2) 0 m

/-- When the search with the bound `level` fails, the next lower bound is `b`, or the `k`-th from here on is, each from a
search with twice the one before. -/
def hitsBound (s : State) (b : ℤ) : ℕ → World → ℤ → Prop
  | 0, w, level => (picatPlan w s level).found = none ∧ nextLevel level (picatPlan w s level).exploredDepth = b
  | k + 1, w, level => (picatPlan w s level).found = none ∧
    hitsBound s b k (picatPlan w s level).world (2 * nextLevel level (picatPlan w s level).exploredDepth)

end Calls

variable {plans : State → Plan → ℕ → Prop} {picatPlan : World → State → ℤ → Answer World State Plan}
  {s : State} {m : Memory World State Plan}

/-- No plan costs less than the lower bound, and the plan in the map costs one more than the upper bound. -/
theorem loopBestPlanBin_spec (hsearch : CorrectSearch plans picatPlan) {fuel : ℕ} {lower upper : ℤ} {f : Found State Plan}
    (hentry : m.best s = some f) (hplan : plans s f.plan f.cost) (hupper : upper = (f.cost : ℤ) - 1)
    (hlower : ∀ p c, plans s p c → lower ≤ c) (hfuel : (upper - lower + 1).toNat < fuel) :
    ∃ g m', loopBestPlanBin picatPlan s fuel lower upper m = some (some g, m') ∧ IsBest plans s g := by
  induction fuel generalizing lower upper m f with
  | zero => exact absurd hfuel (Nat.not_lt_zero _)
  | succ fuel ih =>
    unfold loopBestPlanBin
    split_ifs with hle
    · rcases callPicatPlan_cases hsearch s (lower + (upper - lower) / 2) m with
        ⟨g, depth, w, hcall, -, hplan', hcost⟩ | ⟨hcall, -, hnone, -⟩
      · simp only [hcall, update_self]
        have hlow := hlower g.plan g.cost hplan'
        exact ih (update_self ..) hplan' rfl hlower (by omega)
      · simp only [hcall]
        refine ih (m := ⟨m.best, m.lowerBound, _, _⟩) hentry hplan hupper (fun p c hpc => ?_) (by omega)
        have habove := hnone p c hpc
        omega
    · refine ⟨f, m, by rw [hentry], hplan, fun p c hpc => ?_⟩
      have hlow := hlower p c hpc
      omega

omit [DecidableEq State] in
theorem hitsBound_lt (hsearch : CorrectSearch plans picatPlan) {b : ℤ} {k : ℕ} {w : World} {level : ℤ} (hlevel : 0 ≤ level)
    (h : hitsBound picatPlan s b k w level) : level < b ∧ ∀ p c, plans s p c → b ≤ c := by
  induction k generalizing w level with
  | zero =>
    obtain ⟨hnone, rfl⟩ := h
    obtain ⟨-, hlt, hle⟩ := hsearch.nextLevel hnone
    exact ⟨hlt, hle⟩
  | succ k ih =>
    obtain ⟨hnone, hrest⟩ := h
    obtain ⟨-, hlt, -⟩ := hsearch.nextLevel hnone
    obtain ⟨hlt', hle⟩ := ih (by omega) hrest
    exact ⟨by omega, hle⟩

omit [DecidableEq State] in
theorem hitsBound.failed {b : ℤ} {k : ℕ} {w : World} {level : ℤ} (h : hitsBound picatPlan s b k w level) :
    (picatPlan w s level).found = none := by
  cases k with
  | zero => exact h.1
  | succ k => exact h.1

/-- The phase gives up when a lower bound reaches the limit; a plan of that cost is missed. -/
theorem loopBestPlanDownwardBin_spec (hsearch : CorrectSearch plans picatPlan) {limit : ℤ} {fuel : ℕ} {level : ℤ}
    (hentry : m.best s = none) (hlower : ∀ l ∈ m.lowerBound s, ∀ p c, plans s p c → l ≤ c)
    (hlevel : 0 ≤ level) (hle : level ≤ limit) (hfuel : (limit - level).toNat < fuel) :
    ∃ r m', loopBestPlanDownwardBin picatPlan limit s fuel level m = some (r, m') ∧
      ((∀ p c, plans s p c → limit < c) → r = none) ∧
      ((∃ p c, plans s p c ∧ (c : ℤ) ≤ limit) → ((∃ k, hitsBound picatPlan s limit k m.world level) → r = none) ∧
        ((∀ k, ¬hitsBound picatPlan s limit k m.world level) → ∃ f, r = some f ∧ IsBest plans s f)) := by
  induction fuel generalizing level m with
  | zero => exact absurd hfuel (Nat.not_lt_zero _)
  | succ fuel ih =>
    unfold loopBestPlanDownwardBin
    simp only [if_pos hle]
    rcases callPicatPlan_cases hsearch s level m with
      ⟨f, depth, w, hcall, hsome, hplan, hcost⟩ | ⟨hcall, hfailed, -, hlt, hnext⟩
    · simp only [hcall, update_self]
      have hlow : ∀ p c, plans s p c → (m.lowerBound s).getD 0 ≤ c := fun p c hpc => by
        cases hl : m.lowerBound s with
        | none => exact Int.natCast_nonneg c
        | some l => exact hlower l hl p c hpc
      obtain ⟨g, m', hrun, hbest⟩ := @loopBestPlanBin_spec _ _ _ _ plans picatPlan s
        ⟨update m.best s (some f), m.lowerBound, depth, w⟩ hsearch _ _ _ f (update_self ..) hplan rfl hlow
        (Nat.lt_succ_self _)
      refine ⟨some g, m', hrun, fun habove => ?_, fun _ => ⟨fun ⟨k, hk⟩ => ?_, fun _ => ⟨g, rfl, hbest⟩⟩⟩
      · exact absurd (habove f.plan f.cost hplan) (not_lt.2 (hcost.trans hle))
      · exact absurd hk.failed hsome
    · simp only [hcall, hentry]
      set lower := nextLevel level (picatPlan m.world s level).exploredDepth with hlow
      by_cases hlimit : lower < limit
      · rw [if_pos hlimit]
        have hput : ∀ l ∈ update m.lowerBound s (some lower) s, ∀ p c, plans s p c → l ≤ c := fun l hl => by
          rw [update_self, Option.mem_some_iff] at hl
          exact hl ▸ hnext
        by_cases hcap : 2 * lower > limit
        · -- the next search has the limit as its bound
          obtain ⟨r, m', hrun, habove, hwithin⟩ := @ih ⟨m.best, update m.lowerBound s (some lower),
            (picatPlan m.world s level).exploredDepth, (picatPlan m.world s level).world⟩ limit hentry hput (by omega)
            le_rfl (by omega)
          rw [if_pos hcap]
          refine ⟨r, m', hrun, habove, fun hplan => ⟨fun ⟨k, hk⟩ => ?_, fun _ => (hwithin hplan).2 fun k hk => ?_⟩⟩
          · cases k with
            | zero => exact absurd hk.2 hlimit.ne
            | succ k =>
              have hlt' := (hitsBound_lt hsearch (by omega) hk.2).1
              omega
          · exact absurd (hitsBound_lt hsearch (by omega) hk).1 (lt_irrefl _)
        · obtain ⟨r, m', hrun, habove, hwithin⟩ := @ih ⟨m.best, update m.lowerBound s (some lower),
            (picatPlan m.world s level).exploredDepth, (picatPlan m.world s level).world⟩ (2 * lower) hentry hput (by omega)
            (by omega) (by omega)
          rw [if_neg hcap]
          refine ⟨r, m', hrun, habove, fun hplan => ⟨fun ⟨k, hk⟩ => (hwithin hplan).1 ?_, fun hno => (hwithin hplan).2 ?_⟩⟩
          · cases k with
            | zero => exact absurd hk.2 hlimit.ne
            | succ k => exact ⟨k, hk.2⟩
          · exact fun k hk => hno (k + 1) ⟨hfailed, hk⟩
      · rw [if_neg hlimit]
        refine ⟨none, _, rfl, fun _ => rfl, fun ⟨p, c, hpc, hc⟩ => ⟨fun _ => rfl, fun hno => ?_⟩⟩
        have hle' := hnext p c hpc
        exact absurd ⟨hfailed, by omega⟩ (hno 0)

/-- From a map without entries of the state on, `best_plan_bin` ends, and gives a best plan within the limit if there is
one and none otherwise, of the same cost as `best_plan`, just when there is no plan within the limit or no lower bound of
the first phase is the limit. -/
theorem bestPlanBin_iff (hsearch : CorrectSearch plans picatPlan) (hentry : m.best s = none) (hlower : m.lowerBound s = none)
    (limit : ℕ) :
    ∃ r m' r' m'', bestPlanBin picatPlan s limit m = some (r, m') ∧ bestPlan picatPlan s limit m = some (r', m'') ∧
      (Meets plans s limit r ∧ r.map Found.cost = r'.map Found.cost ↔
        (∀ p c, plans s p c → limit < c) ∨ ∀ k, ¬hitsBound picatPlan s limit k m.world 0) := by
  obtain ⟨r, m', hbin, habove, hwithin⟩ := @loopBestPlanDownwardBin_spec _ _ _ _ plans picatPlan s m hsearch limit
    (limit + 2) 0 hentry (fun l hl => by rw [hlower] at hl; exact absurd hl (Option.not_mem_none l)) le_rfl (by omega)
    (by omega)
  obtain ⟨r', m'', hbest, -, -, hgives⟩ := @planCall_spec _ _ _ _ plans picatPlan s m hsearch
    (fun f hf => absurd (hentry.symm.trans hf) (Option.some_ne_none f).symm) false limit
  refine ⟨r, m', r', m'', hbin, hbest, ?_⟩
  by_cases hplan : ∃ p c, plans s p c ∧ (c : ℤ) ≤ limit
  · obtain ⟨g, hg, hgbest⟩ := hgives.within hplan
    obtain ⟨hmiss, hfind⟩ := hwithin hplan
    obtain ⟨p, c, hpc, hc⟩ := hplan
    have hno : ¬∀ p c, plans s p c → limit < c := fun hall => by
      have hlt := hall p c hpc
      omega
    rw [or_iff_right hno]
    refine ⟨fun hmeets k hk => ?_, fun hk => ?_⟩
    · rw [hmiss ⟨k, hk⟩] at hmeets
      exact hno hmeets.1
    · obtain ⟨f, rfl, hf⟩ := hfind hk
      have hfc := hf.2 p c hpc
      refine ⟨⟨hf, by omega⟩, ?_⟩
      rw [hg, Option.map_some, Option.map_some, Option.some.injEq]
      exact le_antisymm (hf.2 _ _ hgbest.1) (hgbest.2 _ _ hf.1)
  · have hall : ∀ p c, plans s p c → (limit : ℤ) < c := fun p c hpc => by
      rw [not_exists] at hplan
      exact lt_of_not_ge fun hc => hplan p ⟨c, hpc, hc⟩
    have hall' : ∀ p c, plans s p c → limit < c := fun p c hpc => Int.ofNat_lt.1 (hall p c hpc)
    rw [habove hall, hgives.above hall, hentry]
    exact iff_of_true ⟨hall', rfl⟩ (.inl hall')

theorem bestPlanBin_iff_one_plan : ∃ r m' r' m'',
    bestPlanBin (onePlanSearch 5) () 10 ⟨fun _ => none, fun _ => none, 0, ()⟩ = some (r, m') ∧
      bestPlan (onePlanSearch 5) () 10 ⟨fun _ => none, fun _ => none, 0, ()⟩ = some (r', m'') ∧
      (Meets (onePlan 5) () 10 r ∧ r.map Found.cost = r'.map Found.cost ↔
        (∀ p c, onePlan 5 () p c → 10 < c) ∨ ∀ k, ¬hitsBound (onePlanSearch 5) () (10 : ℕ) k () 0) :=
  bestPlanBin_iff (onePlanSearch_correct 5) rfl rfl 10

/-- With the limit 1, the plan of one action is found by `best_plan` and missed by `best_plan_bin`. -/
theorem bestPlanBin_misses_limit :
    ∃ m' m'', bestPlanBin (onePlanSearch 1) () 1 ⟨fun _ => none, fun _ => none, 0, ()⟩ = some (none, m') ∧
      bestPlan (onePlanSearch 1) () 1 ⟨fun _ => none, fun _ => none, 0, ()⟩ = some (some ⟨(), 1, ()⟩, m'') ∧
      CorrectSearch (onePlan 1) (onePlanSearch 1) ∧ ¬Meets (onePlan 1) () 1 none := by
  exact ⟨_, _, rfl, rfl, onePlanSearch_correct 1, fun h => absurd (h () 1 rfl) (lt_irrefl _)⟩

end Picat.Planner
