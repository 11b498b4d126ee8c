import Mathlib.Computability.NFA
import Mathlib.Data.Finset.Sort
import Mathlib.Order.Interval.Finset.Nat
import Mathlib.Tactic.FinCases
import Picat.Graph.Circuit
import Picat.Lib.BoolSums
import Picat.Lib.NfaRuns

/-!
# Transition matrices of finite automata

* `mem_transpose` : the transposed matrix leads back.
-/

namespace Picat.Automaton
open Finset Function List

inductive Entry
  | int (e : ℕ)
  | list (l : List ℕ)
deriving DecidableEq

def Entry.states : Entry → List ℕ
  | .int e => if e = 0 then [] else [e]
  | .list l => l

abbrev Matrix := ℕ → ℕ → Entry

/-- What `transpose_trans_matrix` makes of `TEntry`. -/
def Entry.put (state : ℕ) : Entry → Entry
  | .int e => if e = 0 then .int state else .list [state, e]
  | .list l => .list (state :: l)

/-- `TMatrix[PreState,Input] := …`. -/
def putPre (state input : ℕ) (tMatrix : Matrix) (preState : ℕ) : Matrix :=
  update tMatrix preState (update (tMatrix preState) input ((tMatrix preState input).put state))

def transposeTransMatrix (q s : ℕ) (matrix : Matrix) : Matrix :=
  ((List.range' 1 q).product (List.range' 1 s)).foldl
    (fun tMatrix p => (matrix p.1 p.2).states.foldl (putPre p.1 p.2) tMatrix) fun _ _ => .int 0

/-- `Front1` and `Syms`; an empty list of states counts as a transition. -/
def regularExpand (dWi : List ℕ) (matrix : Matrix) (front : List ℕ) : List ℕ × List ℕ :=
  ((front.flatMap fun state => dWi.flatMap fun input => (matrix state input).states).toFinset.sort,
    (front.flatMap fun state => dWi.filter fun input => matrix state input ≠ .int 0).toFinset.sort)

/-- The automaton reads integers; only those in `1..S` lead anywhere. -/
def automaton (s : ℕ) (matrix : Matrix) (q0 : ℕ) (fs : List ℕ) : NFA ℤ ℕ where
  step := fun state input => {next | 1 ≤ input ∧ input ≤ s ∧ next ∈ (matrix state input.toNat).states}
  start := {q0}
  accept := {state | state ∈ fs}

def Closed (q s : ℕ) (matrix : Matrix) : Prop :=
  ∀ state ∈ Icc 1 q, ∀ input ∈ Icc 1 s, ∀ next ∈ (matrix state input).states, next ∈ Icc 1 q

/-! ## Entries -/

section
variable {q s state input next x : ℕ} {matrix : Matrix}

theorem Entry.states_put (e : Entry) (hstate : state ≠ 0) : (e.put state).states = state :: e.states := by
  cases e with
  | int e =>
    unfold Entry.put
    dsimp only
    split_ifs with he
    · unfold Entry.states
      dsimp only
      rw [if_neg hstate, if_pos he]
    · unfold Entry.states
      dsimp only
      rw [if_neg he]
  | list l => rfl

theorem ne_of_mem_states (h : next ∈ (matrix state input).states) : matrix state input ≠ .int 0 := by
  intro h0
  rw [h0] at h
  exact not_mem_nil h

theorem states_putPre {tMatrix : Matrix} {pre i : ℕ} (hstate : state ≠ 0) :
    x ∈ (putPre state input tMatrix pre next i).states ↔
      x ∈ (tMatrix next i).states ∨ next = pre ∧ i = input ∧ x = state := by
  unfold putPre
  by_cases hn : next = pre
  · subst hn
    rw [Function.update_self]
    by_cases hi : i = input
    · subst hi
      rw [Function.update_self, Entry.states_put _ hstate, List.mem_cons]
      tauto
    · rw [Function.update_of_ne hi]
      tauto
  · rw [Function.update_of_ne hn]
    tauto

theorem states_foldl_putPre {tMatrix : Matrix} {i : ℕ} {l : List ℕ} (hstate : state ≠ 0) :
    x ∈ (l.foldl (putPre state input) tMatrix next i).states ↔
      x ∈ (tMatrix next i).states ∨ next ∈ l ∧ i = input ∧ x = state := by
  induction l generalizing tMatrix with
  | nil =>
    rw [List.foldl_nil]
    simp
  | cons pre l ih =>
    rw [List.foldl_cons, ih, states_putPre hstate, List.mem_cons]
    tauto

theorem mem_transpose : x ∈ (transposeTransMatrix q s matrix next input).states ↔
    x ∈ Icc 1 q ∧ input ∈ Icc 1 s ∧ next ∈ (matrix x input).states := by
  have hgen : ∀ (pairs : List (ℕ × ℕ)) (tMatrix : Matrix), (∀ p ∈ pairs, p.1 ≠ 0) →
      (x ∈ (pairs.foldl (fun tMatrix p => (matrix p.1 p.2).states.foldl (putPre p.1 p.2) tMatrix) tMatrix
          next input).states ↔
        x ∈ (tMatrix next input).states ∨ (x, input) ∈ pairs ∧ next ∈ (matrix x input).states) := by
    intro pairs
    induction pairs with
    | nil =>
      intro tMatrix _
      simp
    | cons p pairs ih =>
      intro tMatrix hpairs
      obtain ⟨st, i⟩ := p
      rw [List.foldl_cons, ih _ fun p hp => hpairs p (List.mem_cons_of_mem _ hp),
        states_foldl_putPre (hpairs _ List.mem_cons_self), List.mem_cons, Prod.mk.injEq]
      constructor
      · rintro ((h | ⟨hnext, rfl, rfl⟩) | ⟨hmem, hnext⟩)
        · exact .inl h
        · exact .inr ⟨.inl ⟨rfl, rfl⟩, hnext⟩
        · exact .inr ⟨.inr hmem, hnext⟩
      · rintro (h | ⟨⟨rfl, rfl⟩ | hmem, hnext⟩)
        · exact .inl (.inl h)
        · exact .inl (.inr ⟨hnext, rfl, rfl⟩)
        · exact .inr ⟨hmem, hnext⟩
  have hrange : ∀ a m : ℕ, a ∈ List.range' 1 m ↔ a ∈ Icc 1 m := by
    intro a m
    rw [List.mem_range'_1, mem_Icc]
    omega
  unfold transposeTransMatrix
  rw [hgen, List.pair_mem_product, hrange, hrange]
  · simp [Entry.states]
    tauto
  · rintro ⟨st, i⟩ hp
    have hst := (hrange _ _).1 (List.pair_mem_product.1 hp).1
    rw [mem_Icc] at hst
    dsimp only
    omega

section
variable {dWi front : List ℕ} (hstate : state ∈ front) (hinput : input ∈ dWi)
  (hnext : next ∈ (matrix state input).states)
include hstate hinput hnext

theorem mem_front : next ∈ (regularExpand dWi matrix front).1 := by
  unfold regularExpand
  rw [mem_sort, mem_toFinset, mem_flatMap]
  exact ⟨state, hstate, mem_flatMap.2 ⟨input, hinput, hnext⟩⟩

theorem mem_syms : input ∈ (regularExpand dWi matrix front).2 := by
  unfold regularExpand
  rw [mem_sort, mem_toFinset, mem_flatMap]
  refine ⟨state, hstate, mem_filter.2 ⟨hinput, ?_⟩⟩
  rw [decide_eq_true_eq]
  exact ne_of_mem_states hnext

end

end

end Picat.Automaton

/-! # States and inputs that no accepting run uses -/

namespace Picat.Automaton
open Finset NfaRuns Picat.Graph

/-- The entries of the arrays `A` and `B` that are set to 0, by time. -/
structure Zeros where
  a : ℕ → ℕ → Bool
  b : ℕ → ℕ → Bool

/-- `Arr[T,Val] = 0`. -/
def setZero (arr : ℕ → ℕ → Bool) (t val : ℕ) : ℕ → ℕ → Bool :=
  Function.update arr t (Function.update (arr t) val true)

/-- For each `Val` in `val..max` that is not in `dom`. -/
def regularExcludeUnreachable (max t : ℕ) (val : ℕ) (dom : List ℕ) (arr : ℕ → ℕ → Bool) : ℕ → ℕ → Bool :=
  if val > max then arr
  else
    match dom with
    | [] => regularExcludeUnreachable max t (val + 1) [] (setZero arr t val)
    | e :: dom' =>
      if e = val then regularExcludeUnreachable max t (val + 1) dom' arr
      else if val > e then regularExcludeUnreachable max t val dom' arr
      else regularExcludeUnreachable max t (val + 1) (e :: dom') (setZero arr t val)
termination_by (max + 1 - val) + dom.length

/-- `fd_domain`, after the domain of the variable was restricted to `1..S`. -/
def fdDomain (s : ℕ) (dom : Finset ℤ) : List ℕ := ((dom.filter fun v => 1 ≤ v ∧ v ≤ (s : ℤ)).image Int.toNat).sort

section
variable (q s : ℕ) (wArr : ℕ → Finset ℤ)

/-- The frontiers from time `t = N - steps` on; the second component says whether one got too large (`Done = 0`). -/
def regularReasonForwardSat (matrix : Matrix) : (steps : ℕ) → (t : ℕ) → List ℕ → Zeros → Zeros × Bool
  | 0, _, _, z => (z, false)
  | steps + 1, t, front, z =>
    if front.length = q then (z, false)
    else if front.length ≥ 512 then (z, true)
    else
      let r := regularExpand (fdDomain s (wArr t)) matrix front
      regularReasonForwardSat matrix steps (t + 1) r.1
        ⟨regularExcludeUnreachable q (t + 1) 1 r.1 z.a, regularExcludeUnreachable s t 1 r.2 z.b⟩

/-- The frontiers from time `t = steps + 2` down to 2. -/
def regularReasonBackwardSat (tMatrix : Matrix) : (steps : ℕ) → List ℕ → Zeros → Zeros × Bool
  | 0, _, z => (z, false)
  | steps + 1, front, z =>
    if front.length = q then (z, false)
    else if front.length ≥ 512 then (z, true)
    else
      let t1 := steps + 2
      let r := regularExpand (fdDomain s (wArr t1)) tMatrix front
      regularReasonBackwardSat tMatrix steps r.1
        ⟨regularExcludeUnreachable q t1 1 r.1 z.a, regularExcludeUnreachable s t1 1 r.2 z.b⟩

def nextStates (matrix : Matrix) (state : ℕ) : List ℕ :=
  (List.range' 1 s).flatMap fun input => (matrix state input).states

/-- Dijkstra's algorithm from the states `from0`, with `n` for the distance of a state that is not reached. -/
def faShortestDistance (matrix : Matrix) (n : ℕ) (from0 : List ℕ) : Option (ℕ → ℕ) :=
  circuitShortestDistance (nextStates s matrix) (from0.length + q * n)
    (from0.foldr (fun state heap => heap.orderedInsert (· ≤ ·) (toLex (0, state))) [])
    fun state => if state ∈ from0 then 0 else n

/-- The states at the times at which they are too far from the initial state or from the accepting states. -/
def regularSdistHeuristicSat (n : ℕ) (sdFromQ0 sdFromF : ℕ → ℕ) (z : Zeros) : Zeros where
  a := fun t state => z.a t state || decide (state ∈ Icc 1 q ∧
    (2 ≤ t ∧ t ≤ sdFromQ0 state ∨ n - sdFromF state + 2 ≤ t ∧ t ≤ n))
  b := z.b

def preprocessRegularConstrSat (matrix tMatrix : Matrix) (q0 : ℕ) (fsLst : List ℕ) (n : ℕ) : Option Zeros :=
  let b := regularReasonBackwardSat q s wArr tMatrix (n - 1) fsLst ⟨fun _ _ => false, fun _ _ => false⟩
  let f := regularReasonForwardSat q s wArr matrix (n - 1) 1 [q0] b.1
  if b.2 || f.2 then
    match faShortestDistance q s matrix n [q0], faShortestDistance q s tMatrix n fsLst with
    | some sdFromQ0, some sdFromF => some (regularSdistHeuristicSat q n sdFromQ0 sdFromF f.1)
    | _, _ => none
  else some f.1

end

/-! ## The entries of a run -/

structure Spares (n : ℕ) (run : ℕ → ℕ) (w : ℕ → ℤ) (z : Zeros) : Prop where
  a : ∀ t ∈ Icc 1 (n + 1), z.a t (run t) = false
  b : ∀ t ∈ Icc 1 n, z.b t (w t).toNat = false

section
variable {max t : ℕ}

theorem setZero_eq {arr : ℕ → ℕ → Bool} {val t' v : ℕ} :
    setZero arr t val t' v = true ↔ arr t' v = true ∨ t' = t ∧ v = val := by
  unfold setZero
  by_cases ht : t' = t
  · subst ht
    rw [Function.update_self]
    by_cases hv : v = val
    · subst hv
      rw [Function.update_self]
      tauto
    · rw [Function.update_of_ne hv]
      tauto
  · rw [Function.update_of_ne ht]
    tauto

theorem exclude_iff (val : ℕ) (dom : List ℕ) (arr : ℕ → ℕ → Bool) (hsorted : dom.Pairwise (· ≤ ·)) {t' v : ℕ} :
    regularExcludeUnreachable max t val dom arr t' v = true ↔
      arr t' v = true ∨ t' = t ∧ val ≤ v ∧ v ≤ max ∧ v ∉ dom := by
  induction val, dom, arr using regularExcludeUnreachable.induct max t with
  | case1 val dom arr hval =>
    unfold regularExcludeUnreachable
    rw [if_pos hval]
    refine (or_iff_left ?_).symm
    omega
  | case2 val arr hval ih =>
    unfold regularExcludeUnreachable
    rw [if_neg hval]
    dsimp only
    rw [ih hsorted, setZero_eq]
    simp only [List.not_mem_nil, not_false_eq_true, and_true]
    constructor
    · rintro ((h | h) | h)
      · exact .inl h
      · exact .inr (by omega)
      · exact .inr (by omega)
    · rintro (h | h)
      · exact .inl (.inl h)
      · by_cases hv : v = val
        · exact .inl (.inr ⟨h.1, hv⟩)
        · exact .inr (by omega)
  | case3 val arr dom hval ih =>
    unfold regularExcludeUnreachable
    rw [if_neg hval]
    dsimp only
    rw [if_pos rfl, ih hsorted.of_cons, List.mem_cons, not_or]
    refine or_congr_right (and_congr_right fun _ => ?_)
    constructor
    · intro hp
      obtain ⟨hle, hmax, hmem⟩ := hp
      exact ⟨by omega, hmax, by omega, hmem⟩
    · intro hp
      obtain ⟨hle, hmax, hne, hmem⟩ := hp
      exact ⟨by omega, hmax, hmem⟩
  | case4 val arr hval e dom hne hlt ih =>
    unfold regularExcludeUnreachable
    rw [if_neg hval]
    dsimp only
    rw [if_neg hne, if_pos hlt, ih hsorted.of_cons, List.mem_cons, not_or]
    refine or_congr_right (and_congr_right fun _ => ?_)
    constructor
    · intro hp
      obtain ⟨hle, hmax, hmem⟩ := hp
      exact ⟨hle, hmax, by omega, hmem⟩
    · intro hp
      obtain ⟨hle, hmax, -, hmem⟩ := hp
      exact ⟨hle, hmax, hmem⟩
  | case5 val arr hval e dom hne hlt ih =>
    unfold regularExcludeUnreachable
    rw [if_neg hval]
    dsimp only
    rw [if_neg hne, if_neg hlt, ih hsorted, setZero_eq]
    -- the list starts after `val`
    have hval' : val ∉ e :: dom := by
      intro hmem
      rcases List.mem_cons.1 hmem with heq | hmem
      · exact hne heq.symm
      · have := List.rel_of_pairwise_cons hsorted hmem
        omega
    constructor
    · rintro ((h | ⟨ht, rfl⟩) | ⟨ht, hle, hmax, hmem⟩)
      · exact .inl h
      · exact .inr ⟨ht, le_refl _, by omega, hval'⟩
      · exact .inr ⟨ht, by omega, hmax, hmem⟩
    · rintro (h | ⟨ht, hle, hmax, hmem⟩)
      · exact .inl (.inl h)
      · by_cases hv : v = val
        · exact .inl (.inr ⟨ht, hv⟩)
        · exact .inr ⟨ht, by omega, hmax, hmem⟩

end

section
variable {q s n : ℕ} {matrix : Matrix} {q0 : ℕ} {fs : List ℕ} {wArr : ℕ → Finset ℤ} {w : ℕ → ℤ} {run : ℕ → ℕ} {z : Zeros}

/-- An accepting run over states of the automaton that reads a word of the domains. -/
structure AcceptingRun (q s : ℕ) (matrix : Matrix) (q0 : ℕ) (fs : List ℕ) (wArr : ℕ → Finset ℤ) (n : ℕ) (w : ℕ → ℤ)
    (run : ℕ → ℕ) : Prop where
  word : ∀ t ∈ Icc 1 n, w t ∈ wArr t
  isRun : IsRun (automaton s matrix q0 fs) w n run
  final : run (n + 1) ∈ fs
  state : ∀ t ∈ Icc 1 (n + 1), run t ∈ Icc 1 q

namespace AcceptingRun

variable (h : AcceptingRun q s matrix q0 fs wArr n w run)
include h

section
variable {t : ℕ} (ht : t ∈ Icc 1 n)
include ht

theorem input : (w t).toNat ∈ Icc 1 s := by
  rw [mem_Icc] at ht ⊢
  obtain ⟨h1, hs, -⟩ := h.isRun.step t ht.1 ht.2
  omega

theorem next : run (t + 1) ∈ (matrix (run t) (w t).toNat).states := by
  rw [mem_Icc] at ht
  exact (h.isRun.step t ht.1 ht.2).2.2

theorem mem_fdDomain : (w t).toNat ∈ fdDomain s (wArr t) := by
  obtain ⟨h1, hs, -⟩ := h.isRun.step t (mem_Icc.1 ht).1 (mem_Icc.1 ht).2
  unfold fdDomain
  rw [mem_sort, mem_image]
  exact ⟨w t, mem_filter.2 ⟨h.word t ht, h1, hs⟩, rfl⟩

theorem previous : run t ∈ (transposeTransMatrix q s matrix (run (t + 1)) (w t).toNat).states := by
  have ht' : t ∈ Icc 1 (n + 1) := by
    rw [mem_Icc] at ht ⊢
    omega
  exact mem_transpose.2 ⟨h.state t ht', h.input ht, h.next ht⟩

end

end AcceptingRun

/-! ## Frontiers -/

theorem Spares.exclude (hz : Spares n run w z) {ta tb : ℕ} {front syms : List ℕ} (hfront : front.Pairwise (· ≤ ·))
    (hsyms : syms.Pairwise (· ≤ ·)) (ha : run ta ∈ front) (hb : (w tb).toNat ∈ syms) :
    Spares n run w ⟨regularExcludeUnreachable q ta 1 front z.a, regularExcludeUnreachable s tb 1 syms z.b⟩ := by
  constructor
  · intro t ht
    rw [← Bool.not_eq_true, exclude_iff 1 front z.a hfront, hz.a t ht]
    rintro (hf | ⟨rfl, -, -, hno⟩)
    · exact Bool.false_ne_true hf
    · exact hno ha
  · intro t ht
    rw [← Bool.not_eq_true, exclude_iff 1 syms z.b hsyms, hz.b t ht]
    rintro (hf | ⟨rfl, -, -, hno⟩)
    · exact Bool.false_ne_true hf
    · exact hno hb

theorem sorted_expand (dWi : List ℕ) (m : Matrix) (front : List ℕ) :
    (regularExpand dWi m front).1.Pairwise (· ≤ ·) ∧ (regularExpand dWi m front).2.Pairwise (· ≤ ·) := by
  unfold regularExpand
  dsimp only
  exact ⟨pairwise_sort _ _, pairwise_sort _ _⟩

theorem spares_forward (h : AcceptingRun q s matrix q0 fs wArr n w run) {steps t : ℕ} (ht : t + steps = n) (h1 : 1 ≤ t)
    {front : List ℕ} (hfront : run t ∈ front) (hz : Spares n run w z) :
    Spares n run w (regularReasonForwardSat q s wArr matrix steps t front z).1 := by
  induction steps generalizing t front z with
  | zero => exact hz
  | succ steps ih =>
    have htn : t ∈ Icc 1 n := by
      rw [mem_Icc]
      omega
    have hsorted := sorted_expand (fdDomain s (wArr t)) matrix front
    have hnext := mem_front hfront (h.mem_fdDomain htn) (h.next htn)
    have hsym := mem_syms hfront (h.mem_fdDomain htn) (h.next htn)
    unfold regularReasonForwardSat
    split_ifs
    · exact hz
    · exact hz
    · exact ih (by omega) (by omega) hnext (hz.exclude hsorted.1 hsorted.2 hnext hsym)

theorem spares_backward (h : AcceptingRun q s matrix q0 fs wArr n w run) {steps : ℕ} (ht : steps + 1 ≤ n)
    {front : List ℕ} (hfront : run (steps + 2) ∈ front) (hz : Spares n run w z) :
    Spares n run w (regularReasonBackwardSat q s wArr (transposeTransMatrix q s matrix) steps front z).1 := by
  induction steps generalizing front z with
  | zero => exact hz
  | succ steps ih =>
    have htn : steps + 2 ∈ Icc 1 n := by
      rw [mem_Icc]
      omega
    have hsorted := sorted_expand (fdDomain s (wArr (steps + 2))) (transposeTransMatrix q s matrix) front
    have hnext := mem_front hfront (h.mem_fdDomain htn) (h.previous htn)
    have hsym := mem_syms hfront (h.mem_fdDomain htn) (h.previous htn)
    unfold regularReasonBackwardSat
    split_ifs
    · exact hz
    · exact hz
    · exact ih (by omega) hnext (hz.exclude hsorted.1 hsorted.2 hnext hsym)

/-! ## Shortest distances -/

theorem mem_nextStates {m : Matrix} {state next input : ℕ} (hinput : input ∈ Icc 1 s)
    (hnext : next ∈ (m state input).states) : next ∈ nextStates s m state := by
  unfold nextStates
  rw [mem_Icc] at hinput
  exact List.mem_flatMap.2 ⟨input, List.mem_range'_1.2 (by omega), hnext⟩

theorem mem_heap {from0 : List ℕ} {pair : ℕ ×ₗ ℕ} :
    pair ∈ from0.foldr (fun state heap => heap.orderedInsert (· ≤ ·) (toLex (0, state))) [] ↔
      ∃ state ∈ from0, pair = toLex (0, state) := by
  induction from0 with
  | nil => simp
  | cons state from0 ih => rw [List.foldr_cons, List.mem_orderedInsert, ih, List.exists_mem_cons_iff]

theorem length_heap (from0 : List ℕ) :
    (from0.foldr (fun state heap => heap.orderedInsert (· ≤ ·) (toLex (0, state))) []).length = from0.length := by
  induction from0 with
  | nil => rfl
  | cons state from0 ih => rw [List.foldr_cons, List.orderedInsert_length, ih, List.length_cons]

theorem exists_faShortestDistance {m : Matrix} (n : ℕ) {from0 : List ℕ} (hfrom : ∀ state ∈ from0, state ∈ Icc 1 q)
    (hclosed : Closed q s m) : ∃ dist, faShortestDistance q s m n from0 = some dist ∧
      ∀ (path : ℕ → ℕ) (k : ℕ), path 0 ∈ from0 → (∀ i < k, path (i + 1) ∈ nextStates s m (path i)) →
        dist (path k) ≤ k := by
  have hneib : ∀ u ∈ Icc 1 q, ∀ v ∈ nextStates s m u, v ∈ Icc 1 q := by
    intro u hu v hv
    obtain ⟨input, hinput, hv⟩ := List.mem_flatMap.1 hv
    refine hclosed u hu input ?_ v hv
    rw [List.mem_range'_1] at hinput
    rw [mem_Icc]
    omega
  have hheap : ∀ pair ∈ from0.foldr (fun state heap => heap.orderedInsert (· ≤ ·) (toLex (0, state)))
      ([] : List (ℕ ×ₗ ℕ)), (ofLex pair).2 ∈ Icc 1 q := by
    intro pair hpair
    obtain ⟨state, hstate, rfl⟩ := mem_heap.1 hpair
    exact hfrom state hstate
  have hwork : work q (from0.foldr (fun state heap => heap.orderedInsert (· ≤ ·) (toLex (0, state))) [])
      (fun state => if state ∈ from0 then 0 else n) ≤ from0.length + q * n := by
    unfold work
    rw [length_heap]
    have hle : ∑ v ∈ Icc 1 q, (if v ∈ from0 then 0 else n) ≤ ∑ _v ∈ Icc 1 q, n := by
      apply sum_le_sum
      intro v _
      split_ifs <;> omega
    rw [sum_const_nat (fun _ _ => rfl), Nat.card_Icc, Nat.add_sub_cancel] at hle
    exact Nat.add_le_add_left hle _
  have hsettling : ∀ start ∈ from0, Settling n start (nextStates s m)
      (from0.foldr (fun state heap => heap.orderedInsert (· ≤ ·) (toLex (0, state))) [])
      fun state => if state ∈ from0 then 0 else n := by
    intro start hstart
    refine ⟨if_pos hstart, ?_, ?_⟩
    · intro v
      split_ifs <;> omega
    · intro u hu
      by_cases hmem : u ∈ from0
      · rw [if_pos hmem]
        exact .inl (mem_heap.2 ⟨u, hmem, rfl⟩)
      · rw [if_neg hmem] at hu
        omega
  have hpath : ∀ start ∈ from0, ∃ dist, faShortestDistance q s m n from0 = some dist ∧
      ∀ (path : ℕ → ℕ) (k : ℕ), path 0 = start → (∀ i < k, path (i + 1) ∈ nextStates s m (path i)) →
        dist (path k) ≤ k := by
    intro start hstart
    obtain ⟨dist, hok, hdone⟩ := exists_shortestDistance hneib hheap hwork (hsettling start hstart)
    refine ⟨dist, hok, ?_⟩
    intro path k h0 hstep
    induction k with
    | zero => rw [h0, hdone.atStart]
    | succ k ih =>
      have hk := ih fun i hi => hstep i (Nat.lt_succ_of_lt hi)
      have hmem := hstep k (Nat.lt_succ_self k)
      by_cases hlt : dist (path k) < n
      · rcases hdone.settled _ hlt with hin | hclosed
        · exact absurd hin List.not_mem_nil
        · have := hclosed _ hmem
          omega
      · have := hdone.le (path (k + 1))
        omega
  cases hfrom0 : from0 with
  | nil =>
    refine ⟨fun state => if state ∈ [] then 0 else n, ?_, ?_⟩
    · unfold faShortestDistance circuitShortestDistance
      rfl
    · intro path k h0
      exact absurd h0 List.not_mem_nil
  | cons state0 rest =>
    obtain ⟨dist, hok, -⟩ := hpath state0 (by rw [hfrom0]; exact List.mem_cons_self)
    rw [← hfrom0]
    refine ⟨dist, hok, ?_⟩
    intro path k h0 hstep
    obtain ⟨dist', hok', hle⟩ := hpath (path 0) h0
    rw [hok, Option.some.injEq] at hok'
    rw [hok']
    exact hle path k rfl hstep

theorem closed_transpose : Closed q s (transposeTransMatrix q s matrix) := by
  intro state _ input _ next hnext
  exact (mem_transpose.1 hnext).1

theorem spares_sdist {sdFromQ0 sdFromF : ℕ → ℕ}
    (hq0 : ∀ t ∈ Icc 1 (n + 1), sdFromQ0 (run t) ≤ t - 1) (hf : ∀ t ∈ Icc 1 (n + 1), sdFromF (run t) ≤ n + 1 - t)
    (hz : Spares n run w z) : Spares n run w (regularSdistHeuristicSat q n sdFromQ0 sdFromF z) := by
  refine ⟨?_, hz.b⟩
  intro t ht
  change (z.a t (run t) || decide _) = false
  rw [hz.a t ht, Bool.false_or, decide_eq_false_iff_not]
  have h1 := hq0 t ht
  have h2 := hf t ht
  rw [mem_Icc] at ht
  intro h
  obtain ⟨-, ⟨hlo, hhi⟩ | ⟨hlo, hhi⟩⟩ := h
  · omega
  · omega

theorem exists_preprocess (hn : 1 ≤ n) (hq0 : q0 ∈ Icc 1 q) {fsLst : List ℕ} (hfs : ∀ state ∈ fsLst, state ∈ Icc 1 q)
    (hsame : ∀ state, state ∈ fsLst ↔ state ∈ fs) (hclosed : Closed q s matrix) :
    ∃ z, preprocessRegularConstrSat q s wArr matrix (transposeTransMatrix q s matrix) q0 fsLst n = some z ∧
      ∀ w run, AcceptingRun q s matrix q0 fs wArr n w run → Spares n run w z := by
  have hboth : ∀ w run, AcceptingRun q s matrix q0 fs wArr n w run → Spares n run w
      (regularReasonForwardSat q s wArr matrix (n - 1) 1 [q0] (regularReasonBackwardSat q s wArr
        (transposeTransMatrix q s matrix) (n - 1) fsLst ⟨fun _ _ => false, fun _ _ => false⟩).1).1 := by
    intro w run h
    have hfront : run (n - 1 + 2) ∈ fsLst := by
      rw [show n - 1 + 2 = n + 1 by omega]
      exact (hsame _).2 h.final
    apply spares_forward h (by omega) (le_refl 1)
    · exact List.mem_singleton.2 h.isRun.start
    · exact spares_backward h (by omega) hfront ⟨fun _ _ => rfl, fun _ _ => rfl⟩
  have hfrom : ∀ state ∈ [q0], state ∈ Icc 1 q := by
    intro state hstate
    rw [List.mem_singleton.1 hstate]
    exact hq0
  obtain ⟨sdFromQ0, hokQ0, hleQ0⟩ := exists_faShortestDistance n hfrom hclosed
  obtain ⟨sdFromF, hokF, hleF⟩ := exists_faShortestDistance n hfs (@closed_transpose q s matrix)
  unfold preprocessRegularConstrSat
  dsimp only
  split_ifs
  · rw [hokQ0, hokF]
    refine ⟨_, rfl, ?_⟩
    intro w run h
    refine spares_sdist ?_ ?_ (hboth w run h)
    · intro t ht
      rw [mem_Icc] at ht
      have hle := hleQ0 (fun i => run (i + 1)) (t - 1) (List.mem_singleton.2 h.isRun.start) ?_
      · rw [Nat.sub_add_cancel ht.1] at hle
        exact hle
      · intro i hi
        have hin : i + 1 ∈ Icc 1 n := by
          rw [mem_Icc]
          omega
        exact mem_nextStates (h.input hin) (h.next hin)
    · intro t ht
      rw [mem_Icc] at ht
      have hle := hleF (fun i => run (n + 1 - i)) (n + 1 - t) ((hsame _).2 h.final) ?_
      · rw [show n + 1 - (n + 1 - t) = t by omega] at hle
        exact hle
      · intro i hi
        have hin : n - i ∈ Icc 1 n := by
          rw [mem_Icc]
          omega
        have hprev := h.previous hin
        rw [show n - i + 1 = n + 1 - i by omega] at hprev
        rw [show n + 1 - (i + 1) = n - i by omega]
        exact mem_nextStates (h.input hin) hprev
  · exact ⟨_, rfl, hboth⟩

end

end Picat.Automaton

/-! # `regular`: words that an automaton accepts -/

namespace Picat.Automaton
open Finset NfaRuns BoolSums

/-- `A[T,State]` and `B[T,Input]`. -/
structure RegularVars where
  a : ℕ → ℕ → Bool
  b : ℕ → ℕ → Bool

/-- What is posted for an entry: a list of states, a state, or no transition. -/
def Transition (x : RegularVars) (t state input : ℕ) : Entry → Prop
  | .list entry => 1 ≤ ((!x.a t state) :: (!x.b t input) :: entry.map (x.a (t + 1))).countP id
  | .int e =>
    if e ≠ 0 then x.a t state = false ∨ x.b t input = false ∨ x.a (t + 1) e = true
    else x.a t state = false ∨ x.b t input = false

section
variable (q s : ℕ) (matrix : Matrix) (q0 : ℕ) (fsLst : List ℕ) (wArr : ℕ → Finset ℤ) (n : ℕ)
variable (seen : ℕ → ℕ → ℕ → Bool) (w : ℕ → ℤ) (x : RegularVars)

/-- `seen T State Input` says that `A[T,State]` or `B[T,Input]` is found bound to 0. -/
structure RegularPosted (z : Zeros) : Prop where
  word : ∀ t ∈ Icc 1 n, w t ∈ wArr t ∧ 1 ≤ w t ∧ w t ≤ s
  zeroA : ∀ t ∈ Icc 1 (n + 1), ∀ state ∈ Icc 1 q,
    regularExcludeUnreachable q (n + 1) 1 fsLst z.a t state = true → x.a t state = false
  zeroB : ∀ t ∈ Icc 1 n, ∀ input ∈ Icc 1 s, z.b t input = true → x.b t input = false
  initial : x.a 1 q0 = true
  others : ∀ state ∈ Icc 1 q, state ≠ q0 → x.a 1 state = false
  one : ∀ t ∈ Icc 2 n, (List.range' 1 q).countP (x.a t) = 1
  accepting : fsLst.countP (x.a (n + 1)) = 1
  transitions : ∀ state ∈ Icc 1 q, ∀ input ∈ Icc 1 s, ∀ t ∈ Icc 1 n, seen t state input = false →
    Transition x t state input (matrix state input)
  channel : ∀ t ∈ Icc 1 n, ∀ input ∈ Icc 1 s, (w t = input ↔ x.b t input = true)

end

section
variable (q s : ℕ) (matrix : Matrix) (q0 : ℕ) (fs : List ℕ) (wArr : ℕ → Finset ℤ) (n : ℕ)
variable (seen : ℕ → ℕ → ℕ → Bool)

/-- The list of accepting states is sorted; the word has the domains `wArr` before the call. -/
def regular (w : ℕ → ℤ) (x : RegularVars) : Prop :=
  let fsLst := fs.mergeSort fun a b => decide (a ≤ b)
  match preprocessRegularConstrSat q s wArr matrix (transposeTransMatrix q s matrix) q0 fsLst n with
  | some z => RegularPosted q s matrix q0 fsLst wArr n seen w x z
  | none => False

def SeenSound : Prop := ∀ w x, regular q s matrix q0 fs wArr n seen w x → ∀ t state input, seen t state input = true →
  x.a t state = false ∨ x.b t input = false

end

theorem transition_iff {x : RegularVars} {t state input : ℕ} (e : Entry) : Transition x t state input e ↔
    (x.a t state = true → x.b t input = true → ∃ next ∈ e.states, x.a (t + 1) next = true) := by
  cases e with
  | list entry =>
    unfold Transition Entry.states
    dsimp only
    rw [one_le_countP_iff]
    simp only [List.exists_mem_cons_iff, List.mem_map, id_eq, Bool.not_eq_true', exists_exists_and_eq_and]
    constructor
    · rintro (ha | hb | h) ha' hb'
      · exact absurd (ha.symm.trans ha') Bool.false_ne_true
      · exact absurd (hb.symm.trans hb') Bool.false_ne_true
      · exact h
    · intro h
      cases ha : x.a t state with
      | false => exact .inl rfl
      | true =>
        cases hb : x.b t input with
        | false => exact .inr (.inl rfl)
        | true => exact .inr (.inr (h ha hb))
  | int e =>
    unfold Transition Entry.states
    dsimp only
    by_cases he : e = 0
    · rw [if_neg (not_not.2 he), if_pos he]
      cases x.a t state <;> cases x.b t input <;> simp
    · rw [if_pos he, if_neg he]
      cases x.a t state <;> cases x.b t input <;> simp

/-! ## Runs -/

section
variable {q s : ℕ} {matrix : Matrix} {q0 : ℕ} {fs : List ℕ} {wArr : ℕ → Finset ℤ} {n : ℕ}
variable {seen : ℕ → ℕ → ℕ → Bool} {w : ℕ → ℤ} {x : RegularVars} {z : Zeros}

theorem acceptingRun_of (hq0 : q0 ∈ Icc 1 q) (hclosed : Closed q s matrix) (hw : ∀ t ∈ Icc 1 n, w t ∈ wArr t)
    {run : ℕ → ℕ} (hrun : IsRun (automaton s matrix q0 fs) w n run) (hfinal : run (n + 1) ∈ fs) :
    AcceptingRun q s matrix q0 fs wArr n w run := by
  refine ⟨hw, hrun, hfinal, ?_⟩
  have hstate : ∀ t, t ≤ n → run (t + 1) ∈ Icc 1 q := by
    intro t
    induction t with
    | zero =>
      intro _
      rw [Set.mem_singleton_iff.1 hrun.start]
      exact hq0
    | succ t ih =>
      intro ht
      obtain ⟨h1, hs, hnext⟩ := hrun.step (t + 1) (by omega) ht
      refine hclosed _ (ih (by omega)) _ ?_ _ hnext
      rw [mem_Icc]
      omega
  intro t ht
  rw [mem_Icc] at ht
  have := hstate (t - 1) (by omega)
  rw [Nat.sub_add_cancel ht.1] at this
  exact this

def varsOf (run : ℕ → ℕ) (w : ℕ → ℤ) : RegularVars where
  a := fun t state => decide (run t = state)
  b := fun t input => decide (w t = input)

theorem posted_varsOf {fsLst : List ℕ} (hnodup : fsLst.Nodup) (hsorted : fsLst.Pairwise (· ≤ ·))
    (hsame : ∀ state, state ∈ fsLst ↔ state ∈ fs) {run : ℕ → ℕ} (h : AcceptingRun q s matrix q0 fs wArr n w run)
    (hz : Spares n run w z) : RegularPosted q s matrix q0 fsLst wArr n seen w (varsOf run w) z := by
  have hstart : run 1 = q0 := h.isRun.start
  have hrow : ∀ t, (varsOf run w).a t (run t) = true := fun t => decide_eq_true rfl
  constructor
  · intro t ht
    obtain ⟨h1, hs, -⟩ := h.isRun.step t (mem_Icc.1 ht).1 (mem_Icc.1 ht).2
    exact ⟨h.word t ht, h1, hs⟩
  · intro t ht state _ hzero
    apply decide_eq_false
    rintro rfl
    rcases (exclude_iff 1 fsLst z.a hsorted).1 hzero with hza | ⟨rfl, -, -, hno⟩
    · rw [hz.a t ht] at hza
      exact Bool.false_ne_true hza
    · exact hno ((hsame _).2 h.final)
  · intro t ht input _ hzero
    apply decide_eq_false
    intro heq
    have hzb := hz.b t ht
    rw [heq, Int.toNat_natCast, hzero] at hzb
    exact Bool.false_ne_true hzb.symm
  · rw [← hstart]
    exact hrow 1
  · intro state _ hne
    exact decide_eq_false fun heq => hne (heq.symm.trans hstart)
  · intro t ht
    have ht' : t ∈ Icc 1 (n + 1) := by
      rw [mem_Icc] at ht ⊢
      omega
    have hstate := mem_Icc.1 (h.state t ht')
    refine (countP_eq_one_iff List.nodup_range').2 ⟨run t, ⟨?_, hrow t⟩, ?_⟩
    · rw [List.mem_range'_1]
      omega
    · intro state hst
      exact (of_decide_eq_true hst.2).symm
  · refine (countP_eq_one_iff hnodup).2 ⟨run (n + 1), ⟨(hsame _).2 h.final, hrow (n + 1)⟩, ?_⟩
    intro state hst
    exact (of_decide_eq_true hst.2).symm
  · intro state _ input _ t ht _
    rw [transition_iff]
    intro ha hb
    have hstate : run t = state := of_decide_eq_true ha
    have hinput : w t = input := of_decide_eq_true hb
    have hnext := h.next ht
    rw [hstate, hinput, Int.toNat_natCast] at hnext
    exact ⟨run (t + 1), hnext, hrow (t + 1)⟩
  · intro t _ input _
    exact decide_eq_true_iff.symm

theorem exists_run_of_posted {fsLst : List ℕ} (hq0 : q0 ∈ Icc 1 q) (hnodup : fsLst.Nodup)
    (hsorted : fsLst.Pairwise (· ≤ ·)) (hsame : ∀ state, state ∈ fsLst ↔ state ∈ fs)
    (hfs : ∀ state ∈ fs, state ∈ Icc 1 q) (hclosed : Closed q s matrix)
    (h : RegularPosted q s matrix q0 fsLst wArr n seen w x z)
    (hseen : ∀ t state input, seen t state input = true → x.a t state = false ∨ x.b t input = false) :
    ∃ run, IsRun (automaton s matrix q0 fs) w n run ∧ run (n + 1) ∈ fs := by
  have hlast : ∀ state ∈ Icc 1 q, x.a (n + 1) state = true → state ∈ fsLst := by
    intro state hstate ha
    by_contra hno
    have hmem : n + 1 ∈ Icc 1 (n + 1) := mem_Icc.2 ⟨Nat.le_add_left 1 n, le_refl _⟩
    have hout := h.zeroA (n + 1) hmem state hstate ((exclude_iff 1 fsLst z.a hsorted).2
      (.inr ⟨rfl, (mem_Icc.1 hstate).1, (mem_Icc.1 hstate).2, hno⟩))
    exact Bool.false_ne_true (hout.symm.trans ha)
  -- the state at every time
  have hstate : ∀ t ∈ Icc 1 (n + 1), ∃ state ∈ Icc 1 q, x.a t state = true ∧
      ∀ state' ∈ Icc 1 q, x.a t state' = true → state' = state := by
    intro t ht
    rw [mem_Icc] at ht
    by_cases h1 : t = 1
    · refine ⟨q0, hq0, ?_, ?_⟩
      · rw [h1]
        exact h.initial
      · intro state' hstate' ha
        by_contra hne
        rw [h1, h.others state' hstate' hne] at ha
        exact Bool.false_ne_true ha
    · by_cases hlt : t ≤ n
      · have hone := h.one t (mem_Icc.2 ⟨by omega, hlt⟩)
        obtain ⟨state, ⟨hmem, ha⟩, huniq⟩ := (countP_eq_one_iff List.nodup_range').1 hone
        have hrange : ∀ v, v ∈ List.range' 1 q ↔ v ∈ Icc 1 q := by
          intro v
          rw [List.mem_range'_1, mem_Icc]
          omega
        exact ⟨state, (hrange state).1 hmem, ha, fun state' hmem' ha' => huniq state' ⟨(hrange state').2 hmem', ha'⟩⟩
      · obtain ⟨state, ⟨hmem, ha⟩, huniq⟩ := (countP_eq_one_iff hnodup).1 h.accepting
        have heq : t = n + 1 := by omega
        subst heq
        exact ⟨state, hfs state ((hsame state).1 hmem), ha,
          fun state' hmem' ha' => huniq state' ⟨hlast state' hmem' ha', ha'⟩⟩
  choose! run hrun hone huniq using hstate
  refine ⟨run, ⟨?_, ?_⟩, ?_⟩
  · have h1 : 1 ∈ Icc 1 (n + 1) := mem_Icc.2 ⟨le_refl 1, Nat.le_add_left 1 n⟩
    exact Set.mem_singleton_iff.2 (huniq 1 h1 q0 hq0 h.initial).symm
  · intro t h1 hn
    have ht : t ∈ Icc 1 n := mem_Icc.2 ⟨h1, hn⟩
    have ht' : t ∈ Icc 1 (n + 1) := mem_Icc.2 ⟨h1, Nat.le_succ_of_le hn⟩
    have ht1 : t + 1 ∈ Icc 1 (n + 1) := mem_Icc.2 ⟨Nat.le_add_left 1 t, Nat.succ_le_succ hn⟩
    obtain ⟨-, hlo, hhi⟩ := h.word t ht
    have hinput : (w t).toNat ∈ Icc 1 s := by
      rw [mem_Icc]
      omega
    have hb : x.b t (w t).toNat = true := (h.channel t ht _ hinput).1 (Int.toNat_of_nonneg (by omega)).symm
    have ha := hone t ht'
    have htrans : Transition x t (run t) (w t).toNat (matrix (run t) (w t).toNat) := by
      cases hs : seen t (run t) (w t).toNat with
      | false => exact h.transitions _ (hrun t ht') _ hinput t ht hs
      | true =>
        rcases hseen _ _ _ hs with hf | hf
        · exact absurd (hf.symm.trans ha) Bool.false_ne_true
        · exact absurd (hf.symm.trans hb) Bool.false_ne_true
    obtain ⟨next, hmem, hnext⟩ := (transition_iff _).1 htrans ha hb
    rw [← huniq (t + 1) ht1 next (hclosed _ (hrun t ht') _ hinput next hmem) hnext]
    exact ⟨hlo, hhi, hmem⟩
  · have hn : n + 1 ∈ Icc 1 (n + 1) := mem_Icc.2 ⟨Nat.le_add_left 1 n, le_refl _⟩
    exact (hsame _).1 (hlast _ (hrun _ hn) (hone _ hn))

/-- For an automaton with states `1..Q`, distinct accepting states and a word of `n` variables, `regular` has a solution
just when the automaton accepts the word, and what is set to 0 before spares every accepting run. -/
theorem regular_iff (hn : 1 ≤ n) (hq0 : q0 ∈ Icc 1 q) (hfs : ∀ state ∈ fs, state ∈ Icc 1 q) (hnodup : fs.Nodup)
    (hclosed : Closed q s matrix) (hseen : SeenSound q s matrix q0 fs wArr n seen) (hw : ∀ t ∈ Icc 1 n, w t ∈ wArr t) :
    ((∃ x, regular q s matrix q0 fs wArr n seen w x) ↔ word w n ∈ (automaton s matrix q0 fs).accepts) ∧
      ∃ z, preprocessRegularConstrSat q s wArr matrix (transposeTransMatrix q s matrix) q0
          (fs.mergeSort fun a b => decide (a ≤ b)) n = some z ∧
        ∀ run, IsRun (automaton s matrix q0 fs) w n run → run (n + 1) ∈ fs → Spares n run w z := by
  have hsame : ∀ state, state ∈ fs.mergeSort (fun a b => decide (a ≤ b)) ↔ state ∈ fs := fun state => List.mem_mergeSort
  have hnodup' : (fs.mergeSort fun a b => decide (a ≤ b)).Nodup := (List.mergeSort_perm fs _).nodup_iff.2 hnodup
  have hsorted : (fs.mergeSort fun a b => decide (a ≤ b)).Pairwise (· ≤ ·) := by
    have h := @List.pairwise_mergeSort ℕ (fun a b => decide (a ≤ b)) ?_ ?_ fs
    · exact h.imp fun hab => of_decide_eq_true hab
    · intro a b c hab hbc
      exact decide_eq_true ((of_decide_eq_true hab).trans (of_decide_eq_true hbc))
    · intro a b
      rw [Bool.or_eq_true, decide_eq_true_eq, decide_eq_true_eq]
      exact le_total a b
  obtain ⟨z, hok, hspares⟩ :=
    @exists_preprocess q s n matrix q0 fs wArr hn hq0 _ (fun state h => hfs state ((hsame state).1 h))
    hsame hclosed
  have hposted : ∀ x, regular q s matrix q0 fs wArr n seen w x ↔
      RegularPosted q s matrix q0 (fs.mergeSort fun a b => decide (a ≤ b)) wArr n seen w x z := by
    intro x
    unfold regular
    dsimp only
    rw [hok]
  refine ⟨?_, z, hok, fun run hrun hfinal => hspares w run (acceptingRun_of hq0 hclosed hw hrun hfinal)⟩
  rw [mem_accepts_iff]
  constructor
  · intro hp
    obtain ⟨x, hx⟩ := hp
    exact exists_run_of_posted hq0 hnodup' hsorted hsame hfs hclosed ((hposted x).1 hx) (hseen w x hx)
  · intro hp
    obtain ⟨run, hrun, hfinal⟩ := hp
    have h := acceptingRun_of hq0 hclosed hw hrun hfinal
    exact ⟨varsOf run w, (hposted _).2 (posted_varsOf hnodup' hsorted hsame h (hspares w run h))⟩

end

/-- One state, which accepts and has a transition to itself, and a word of one letter. -/
theorem regular_iff_loop :
    ((∃ x, regular 1 1 (fun _ _ => .list [1]) 1 [1] (fun _ => {1}) 1 (fun _ _ _ => false) (fun _ => 1) x) ↔
        word (fun _ => 1) 1 ∈ (automaton 1 (fun _ _ => .list [1]) 1 [1]).accepts) ∧
      ∃ z, preprocessRegularConstrSat 1 1 (fun _ => {1}) (fun _ _ => .list [1])
          (transposeTransMatrix 1 1 fun _ _ => .list [1]) 1 ([1].mergeSort fun a b => decide (a ≤ b)) 1 = some z ∧
        ∀ run, IsRun (automaton 1 (fun _ _ => .list [1]) 1 [1]) (fun _ => 1) 1 run → run 2 ∈ [1] →
          Spares 1 run (fun _ => 1) z := by
  refine regular_iff (le_refl 1) (by decide) (by decide) (by decide) ?_ ?_ ?_
  · intro state _ input _ next hnext
    rw [List.mem_singleton.1 hnext]
    decide
  · intro w x _ t state input hseen
    exact absurd hseen Bool.false_ne_true
  · intro t _
    exact mem_singleton_self 1

end Picat.Automaton
