import Mathlib.Data.List.Basic
import Mathlib.Tactic.Linarith

/-!
# Searching for a cheapest element between two bounds

A search that asks for elements up to some cost between its bounds. Each element that is found puts its cost into a queue,
once or more, and a cost from the front of the queue is the next upper bound. With an empty queue the search goes on above
what it has asked for.

* `rounds_spec` : with rounds enough the search ends with a cheapest element.
-/

namespace OptimumSearch

open List

section
variable {α : Type*} (mid : ℤ → ℤ → ℤ) (ask : ℕ → ℤ → Option α) (times : ℕ → ℕ) (cost : α → ℤ)

/-- `ask round m` is an element that costs `m` at most; its cost is put into the queue `times round` times. -/
def rounds : ℕ → ℕ → ℤ → ℤ → List ℤ → Option α → Option (Option α)
  | 0, _, _, _, _, _ => none
  | fuel + 1, round, lo, hi, queue, best =>
    let found := if lo ≤ hi then ask round (mid lo hi) else none
    let queue1 := match found with
      | some a => queue ++ List.replicate (times round) (cost a)
      | none => queue
    let best1 := match found with
      | some a => some a
      | none => best
    match queue1 with
    | bound :: rest => rounds fuel (round + 1) lo (bound - 1) rest best1
    | [] => if lo < hi then rounds fuel (round + 1) (mid lo hi + 1) hi [] best1 else some best1

variable (S : Set α)

/-- Elements are found that cost no more than what is asked for, whenever there are any. -/
structure Answers (ask : ℕ → ℤ → Option α) : Prop where
  sound : ∀ round m a, ask round m = some a → a ∈ S ∧ cost a ≤ m
  complete : ∀ round m, ask round m = none → ∀ a ∈ S, m < cost a

/-- The last bound, in the queue or in force, is the cost of the best element. -/
structure Known (lo hi : ℤ) (queue : List ℤ) (best : Option α) : Prop where
  low : ∀ a ∈ S, lo ≤ cost a
  high : best = none → queue = [] ∧ ∀ a ∈ S, cost a ≤ hi
  best : ∀ b, best = some b → b ∈ S ∧ ((hi + 1) :: queue).getLast? = some (cost b)

structure IsOptimum (r : Option α) : Prop where
  none_iff : r = none ↔ S = ∅
  least : ∀ b, r = some b → b ∈ S ∧ ∀ a ∈ S, cost b ≤ cost a

end

/-! ## What is known -/

variable {bound : ℤ} {rest : List ℤ}

section
variable {α : Type*} {S : Set α} {cost : α → ℤ} {lo hi : ℤ} {queue : List ℤ} {best : Option α}

theorem known_start (h : ∀ a ∈ S, lo ≤ cost a ∧ cost a ≤ hi) : Known cost S lo hi [] none :=
  ⟨fun a ha => (h a ha).1, fun _ => ⟨rfl, fun a ha => (h a ha).2⟩, fun b hb => absurd hb.symm (Option.some_ne_none b)⟩

theorem Known.found (h : Known cost S lo hi queue best) {a : α} (ha : a ∈ S) {n : ℕ} (hn : 0 < n) :
    Known cost S lo hi (queue ++ List.replicate n (cost a)) (some a) := by
  refine ⟨h.low, fun hnone => absurd hnone (Option.some_ne_none a), ?_⟩
  intro b hb
  rw [← Option.some.inj hb]
  refine ⟨ha, ?_⟩
  obtain ⟨n, rfl⟩ := Nat.exists_eq_add_of_lt hn
  rw [zero_add, replicate_succ', ← append_assoc, ← cons_append, List.getLast?_concat]

theorem Known.take (h : Known cost S lo hi (bound :: rest) best) : Known cost S lo (bound - 1) rest best := by
  refine ⟨h.low, fun hnone => absurd (h.high hnone).1 (cons_ne_nil bound rest), ?_⟩
  intro b hb
  obtain ⟨hbS, hlast⟩ := h.best b hb
  rw [List.getLast?_cons_cons] at hlast
  rw [sub_add_cancel]
  exact ⟨hbS, hlast⟩

theorem Known.missed (h : Known cost S lo hi queue best) {m : ℤ} (hno : ∀ a ∈ S, m < cost a) :
    Known cost S (m + 1) hi queue best :=
  ⟨hno, h.high, h.best⟩

theorem Known.isOptimum (h : Known cost S lo hi [] best) (hno : ∀ a ∈ S, hi < cost a) : IsOptimum cost S best := by
  constructor
  · rw [Set.eq_empty_iff_forall_notMem]
    constructor
    · intro hnone a ha
      exact absurd ((h.high hnone).2 a ha) (hno a ha).not_ge
    · intro hempty
      by_contra hsome
      obtain ⟨b, hb⟩ := Option.ne_none_iff_exists'.1 hsome
      exact hempty b (h.best b hb).1
  · intro b hb
    obtain ⟨hbS, hlast⟩ := h.best b hb
    have hcost : hi + 1 = cost b := Option.some.inj hlast
    refine ⟨hbS, fun a ha => ?_⟩
    rw [← hcost]
    exact hno a ha

end

/-! ## Runs -/

section
variable {α : Type*} {mid : ℤ → ℤ → ℤ} {ask : ℕ → ℤ → Option α} {times : ℕ → ℕ} {cost : α → ℤ} {S : Set α}

def Ends (mid : ℤ → ℤ → ℤ) (ask : ℕ → ℤ → Option α) (times : ℕ → ℕ) (cost : α → ℤ) (S : Set α) (round : ℕ) (lo hi : ℤ)
    (queue : List ℤ) (best : Option α) : Prop :=
  ∃ N r, IsOptimum cost S r ∧ ∀ fuel ≥ N, rounds mid ask times cost fuel round lo hi queue best = some r

section
variable {round : ℕ} {lo hi : ℤ} {queue : List ℤ} {best : Option α}

theorem Ends.of_step {round' : ℕ} {lo' hi' : ℤ} {queue' : List ℤ} {best' : Option α}
    (hstep : ∀ fuel, rounds mid ask times cost (fuel + 1) round lo hi queue best =
      rounds mid ask times cost fuel round' lo' hi' queue' best')
    (h : Ends mid ask times cost S round' lo' hi' queue' best') : Ends mid ask times cost S round lo hi queue best := by
  obtain ⟨N, r, hopt, hrun⟩ := h
  refine ⟨N + 1, r, hopt, fun fuel hfuel => ?_⟩
  obtain ⟨fuel, rfl⟩ := Nat.exists_eq_add_of_le' (Nat.le_of_add_left_le hfuel)
  rw [hstep]
  exact hrun fuel (Nat.le_of_succ_le_succ hfuel)

theorem rounds_found {a : α} (hfound : (if lo ≤ hi then ask round (mid lo hi) else none) = some a)
    (hcons : queue ++ List.replicate (times round) (cost a) = bound :: rest) (fuel : ℕ) :
    rounds mid ask times cost (fuel + 1) round lo hi queue best =
      rounds mid ask times cost fuel (round + 1) lo (bound - 1) rest (some a) := by
  simp only [rounds, hfound, hcons]

theorem rounds_take (hfound : (if lo ≤ hi then ask round (mid lo hi) else none) = none)
    (fuel : ℕ) : rounds mid ask times cost (fuel + 1) round lo hi (bound :: rest) best =
      rounds mid ask times cost fuel (round + 1) lo (bound - 1) rest best := by
  rw [rounds, hfound]

section
variable (hask : Answers cost S ask) (htimes : ∀ round, 0 < times round)
include hask htimes

theorem Ends.of_round (hknown : Known cost S lo hi queue best) (hmid : lo ≤ hi → lo ≤ mid lo hi ∧ mid lo hi ≤ hi)
    (htake : ∀ bound rest added best1, bound :: rest = queue ++ added → (∀ c ∈ added, lo ≤ hi ∧ c ≤ hi) →
      Known cost S lo (bound - 1) rest best1 → Ends mid ask times cost S (round + 1) lo (bound - 1) rest best1)
    (hmissed : queue = [] → lo < hi → Known cost S (mid lo hi + 1) hi [] best →
      Ends mid ask times cost S (round + 1) (mid lo hi + 1) hi [] best) :
    Ends mid ask times cost S round lo hi queue best := by
  cases hfound : (if lo ≤ hi then ask round (mid lo hi) else none) with
  | some a =>
    have hle : lo ≤ hi := by
      by_contra hgt
      rw [if_neg hgt] at hfound
      exact Option.some_ne_none a hfound.symm
    rw [if_pos hle] at hfound
    obtain ⟨ha, hcost⟩ := hask.sound _ _ _ hfound
    have hknown1 := hknown.found ha (htimes round)
    obtain ⟨bound, rest, hcons⟩ : ∃ bound rest, queue ++ List.replicate (times round) (cost a) = bound :: rest := by
      apply exists_cons_of_ne_nil
      intro hnil
      have := replicate_eq_nil_iff _ |>.1 (append_eq_nil_iff.1 hnil).2
      exact (htimes round).ne' this
    rw [hcons] at hknown1
    refine Ends.of_step (rounds_found ((if_pos hle).trans hfound) hcons) ?_
    refine htake bound rest _ (some a) hcons.symm ?_ hknown1.take
    intro c hc
    rw [eq_of_mem_replicate hc]
    exact ⟨hle, hcost.trans (hmid hle).2⟩
  | none =>
    have hno : lo ≤ hi → ∀ a ∈ S, mid lo hi < cost a := by
      intro hle
      rw [if_pos hle] at hfound
      exact hask.complete _ _ hfound
    cases queue with
    | cons bound rest =>
      refine Ends.of_step (rounds_take hfound) ?_
      exact htake bound rest [] best (append_nil _).symm (fun c hc => absurd hc not_mem_nil) hknown.take
    | nil =>
      by_cases hlt : lo < hi
      · refine Ends.of_step (fun fuel => ?_) (hmissed rfl hlt (hknown.missed (hno hlt.le)))
        rw [rounds, hfound]
        exact if_pos hlt
      · refine ⟨1, best, hknown.isOptimum ?_, fun fuel hfuel => ?_⟩
        · intro a ha
          by_cases hle : lo ≤ hi
          · have := hno hle a ha
            have := hmid hle
            omega
          · have := hknown.low a ha
            omega
        · obtain ⟨fuel, rfl⟩ := Nat.exists_eq_add_of_le' hfuel
          rw [rounds, hfound]
          exact if_neg hlt

section
variable (hmid : ∀ lo hi, lo ≤ hi → lo ≤ mid lo hi ∧ mid lo hi ≤ hi)
include hmid

theorem Ends.of_lt (hknown : Known cost S lo hi queue best)
    (hhi : hi < lo) (hqueue : ∀ c ∈ queue, c ≤ lo) : Ends mid ask times cost S round lo hi queue best := by
  have hnil : ∀ added : List ℤ, (∀ c ∈ added, lo ≤ hi ∧ c ≤ hi) → added = [] := fun added hadded =>
    eq_nil_iff_forall_not_mem.2 fun c hc => hhi.not_ge (hadded c hc).1
  induction queue generalizing round hi best with
  | nil =>
    apply Ends.of_round hask htimes hknown (hmid lo hi)
    · intro bound rest added best1 heq hadded _
      rw [hnil added hadded] at heq
      exact absurd heq (cons_ne_nil bound rest)
    · intro _ hlt
      omega
  | cons c queue ih =>
    apply Ends.of_round hask htimes hknown (hmid lo hi)
    · intro bound rest added best1 heq hadded hknown1
      rw [hnil added hadded, append_nil] at heq
      obtain ⟨rfl, rfl⟩ := cons_eq_cons.1 heq
      have hle := hqueue bound mem_cons_self
      have hlt : bound - 1 < lo := by omega
      apply ih hknown1 hlt fun c hc => hqueue c (mem_cons_of_mem bound hc)
      intro added' hadded'
      exact eq_nil_iff_forall_not_mem.2 fun c hc => hlt.not_ge (hadded' c hc).1
    · intro hqueue
      exact absurd hqueue (cons_ne_nil c queue)

/-- What is found later costs less than `top + 1`: when the bounds `front` are taken, all bounds are lower. -/
theorem Ends.of_known (n : ℕ) {top : ℤ} {front back : List ℤ}
    (hn : top + 1 - lo ≤ n) (hhi : hi ≤ top) (hfront : ∀ c ∈ front, c ≤ top + 1) (hback : ∀ c ∈ back, c ≤ top)
    (hknown : Known cost S lo hi (front ++ back) best) : Ends mid ask times cost S round lo hi (front ++ back) best := by
  induction n generalizing round lo hi top front back best with
  | zero =>
    apply Ends.of_lt hask htimes hmid hknown (by omega)
    intro c hc
    rcases mem_append.1 hc with hc | hc
    · have := hfront c hc
      omega
    · have := hback c hc
      omega
  | succ n ih =>
    induction front generalizing round hi back best with
    | nil =>
      apply Ends.of_round hask htimes hknown (hmid lo hi)
      · intro bound rest added best1 heq hadded hknown1
        rw [nil_append] at heq
        have hle : ∀ c ∈ bound :: rest, c ≤ top := by
          intro c hc
          rw [heq] at hc
          rcases mem_append.1 hc with hc | hc
          · exact hback c hc
          · exact (hadded c hc).2.trans hhi
        have hbound := hle bound mem_cons_self
        have hn' : top - 1 + 1 - lo ≤ n := by omega
        have hrest : ∀ c ∈ rest, c ≤ top - 1 + 1 := by
          intro c hc
          have := hle c (mem_cons_of_mem bound hc)
          omega
        rw [← append_nil rest] at hknown1 ⊢
        exact ih hn' (by omega) hrest (fun c hc => absurd hc not_mem_nil) hknown1
      · intro _ hlt hknown1
        have := hmid lo hi hlt.le
        have hn' : top + 1 - (mid lo hi + 1) ≤ n := by omega
        have hempty : ∀ u : ℤ, ∀ c ∈ ([] : List ℤ), c ≤ u := fun u c hc => absurd hc not_mem_nil
        exact ih hn' hhi (hempty (top + 1)) (hempty top) hknown1
    | cons f front ihfront =>
      apply Ends.of_round hask htimes hknown (hmid lo hi)
      · intro bound rest added best1 heq hadded hknown1
        rw [cons_append, cons_append, append_assoc] at heq
        obtain ⟨rfl, rfl⟩ := cons_eq_cons.1 heq
        have hbound := hfront bound mem_cons_self
        refine ihfront (by omega) (fun c hc => hfront c (mem_cons_of_mem bound hc)) ?_ hknown1
        intro c hc
        rcases mem_append.1 hc with hc | hc
        · exact hback c hc
        · exact (hadded c hc).2.trans hhi
      · intro hnil
        exact absurd hnil (cons_ne_nil f _)

theorem rounds_spec (hS : ∀ a ∈ S, lo ≤ cost a ∧ cost a ≤ hi) : Ends mid ask times cost S round lo hi [] none :=
  have hempty : ∀ u : ℤ, ∀ c ∈ ([] : List ℤ), c ≤ u := fun u c hc => absurd hc not_mem_nil
  Ends.of_known hask htimes hmid (hi + 1 - lo).toNat (by omega) (le_refl hi) (hempty (hi + 1)) (hempty hi) (known_start hS)

end

end

end

end

end OptimumSearch
