import Mathlib.Algebra.Order.BigOperators.Group.Finset
import Mathlib.Data.Finset.Sort
import Mathlib.Data.Prod.Lex
import Mathlib.Order.Interval.Finset.Nat
import Picat.Graph.Vertices
import Picat.Lib.OneCycle

/-!
# Positions that no cycle from the start uses

`circuit_preprocess` takes positions out of the domains of the nodes: by frontiers expanded from the start, forward and
backward, by a rule for symmetric graphs, and by shortest distances when a frontier got too large.

* `exists_circuitPreprocess` : the preprocessing ends and keeps the places of every cycle.
-/

namespace Picat.Graph
open Finset

/-- `bp.domain_set_false(P[I],V)`. -/
def domainSetFalse (p : ℕ → Finset ℕ) (I v : ℕ) : ℕ → Finset ℕ := Function.update p I ((p I).erase v)

/-- `foreach (T in Lo..Hi) bp.domain_set_false(P[I], T) end`. -/
def domainSetFalseRange (p : ℕ → Finset ℕ) (I lo hi : ℕ) : ℕ → Finset ℕ :=
  (List.range' lo (hi + 1 - lo)).foldl (fun p T => domainSetFalse p I T) p

/-- For each `E` in `e..max` that is not in `dom`, `E` is not at position `pos`. -/
def circuitExcludeUnreachable (max pos : ℕ) (e : ℕ) (dom : List ℕ) (p : ℕ → Finset ℕ) : ℕ → Finset ℕ :=
  if e > max then p
  else
    match dom with
    | [] => circuitExcludeUnreachable max pos (e + 1) [] (domainSetFalse p e pos)
    | ed :: dom' =>
      if ed = e then circuitExcludeUnreachable max pos (e + 1) dom' p
      else if e > ed then circuitExcludeUnreachable max pos e dom' p
      else circuitExcludeUnreachable max pos (e + 1) (ed :: dom') (domainSetFalse p e pos)
termination_by (max + 1 - e) + dom.length

def circuitExpand (start : ℕ) (neibVect : ℕ → List ℕ) (front : List ℕ) : List ℕ :=
  (front.flatMap fun I => (neibVect I).filter (· ≠ start)).toFinset.sort

section
variable (n start : ℕ)

/-- The frontiers from time `t = N - steps` on; the second component says whether one got too large (`Done = 0`). -/
def circuitReasonForward (neibVect : ℕ → List ℕ) : (steps : ℕ) → (t : ℕ) → List ℕ → (ℕ → Finset ℕ) →
    (ℕ → Finset ℕ) × Bool
  | 0, _, _, p => (p, false)
  | steps + 1, t, front, p =>
    if front.length ≤ 512 ∧ front.length < n - 1 then
      let front1 := circuitExpand start neibVect front
      circuitReasonForward neibVect steps (t + 1) front1 (circuitExcludeUnreachable n (t + 1) 1 front1 p)
    else (p, true)

/-- The frontiers from time `t = steps + 2` down to 2. -/
def circuitReasonBackward (tNeibVect : ℕ → List ℕ) (undirected : Bool) : (steps : ℕ) → List ℕ → (ℕ → Finset ℕ) →
    (ℕ → Finset ℕ) × Bool
  | 0, _, p => (p, false)
  | steps + 1, front, p =>
    if front.length ≤ 512 ∧ front.length < n - 1 then
      let t1 := steps + 2
      let front1 := circuitExpand start tNeibVect front
      let p1 := circuitExcludeUnreachable n t1 1 front1 p
      let p2 :=
        if undirected then
          match front1 with
          | [x1, x2] => (List.range' (n - t1 + 3) (t1 - (n - t1 + 3))).foldl
              (fun p TT => domainSetFalse (domainSetFalse p x1 TT) x2 TT) p1
          | _ => p1
        else p1
      circuitReasonBackward tNeibVect undirected steps front1 p2
    else (p, true)

end

/-- `foreach (Neib in NeibVect[Node])` of Dijkstra's algorithm. -/
def relax (dist1 : ℕ) : List ℕ → List (ℕ ×ₗ ℕ) → (ℕ → ℕ) → List (ℕ ×ₗ ℕ) × (ℕ → ℕ)
  | [], heap, dist => (heap, dist)
  | neib :: neibs, heap, dist =>
    if dist neib ≤ dist1 then relax dist1 neibs heap dist
    else relax dist1 neibs (heap.orderedInsert (· ≤ ·) (toLex (dist1, neib))) (Function.update dist neib dist1)

/-- The heap gives its least pair first; nothing comes of it while the fuel is too small. -/
def circuitShortestDistance (neibVect : ℕ → List ℕ) : ℕ → List (ℕ ×ₗ ℕ) → (ℕ → ℕ) → Option (ℕ → ℕ)
  | _, [], dist => some dist
  | 0, _ :: _, _ => none
  | fuel + 1, pair :: heap, dist =>
    let r := relax ((ofLex pair).1 + 1) (neibVect (ofLex pair).2) heap dist
    circuitShortestDistance neibVect fuel r.1 r.2

def circuitShortestDistance0 (n start : ℕ) (neibVect : ℕ → List ℕ) : Option (ℕ → ℕ) :=
  circuitShortestDistance neibVect (1 + n * n) [toLex (0, start)] (Function.update (fun _ => n) start 0)

def circuitPreprocess (n start : ℕ) (neibVect tNeibVect : ℕ → List ℕ) (p : ℕ → Finset ℕ) : Option (ℕ → Finset ℕ) :=
  let undirected := (List.range' 1 n).all fun I => decide (neibVect I = tNeibVect I)
  let f := circuitReasonForward n start neibVect (n - 1) 1 [start] p
  let b := circuitReasonBackward n start tNeibVect undirected (n - 1) [start] f.1
  if f.2 || b.2 then
    match circuitShortestDistance0 n start neibVect, circuitShortestDistance0 n start tNeibVect with
    | some sdFromStart, some sdToStart =>
      some (((List.range' 1 n).filter (· ≠ start)).foldl (fun p I =>
        domainSetFalseRange (domainSetFalseRange p I 1 (sdFromStart I)) I (n - sdToStart I + 2) n) b.1)
    | _, _ => none
  else some b.1

/-! ## Steps and places -/

/-- `rank` counts steps from the start: every other node comes one step after a node that it follows. -/
structure Ranked (n start : ℕ) (neibVect : ℕ → List ℕ) (rank : ℕ → ℕ) : Prop where
  atStart : rank start = 0
  pred : ∀ v ∈ Icc 1 n, v ≠ start → ∃ u ∈ Icc 1 n, rank v = rank u + 1 ∧ v ∈ neibVect u

theorem Ranked.eq_start {n start : ℕ} {neibVect : ℕ → List ℕ} {rank : ℕ → ℕ} (h : Ranked n start neibVect rank) {v : ℕ}
    (hv : v ∈ Icc 1 n) (h0 : rank v = 0) : v = start := by
  by_contra hne
  obtain ⟨u, -, hu, -⟩ := h.pred v hv hne
  omega

/-- The place `pos v` of every node, on a cycle that starts at place 1. -/
structure Placed (n start : ℕ) (neibVect tNeibVect : ℕ → List ℕ) (pos : ℕ → ℕ) : Prop where
  mem : ∀ v ∈ Icc 1 n, pos v ∈ Icc 1 n
  atStart : pos start = 1
  forward : Ranked n start neibVect fun v => pos v - 1
  backward : Ranked n start tNeibVect fun v => if v = start then 0 else n + 1 - pos v

def Kept (n : ℕ) (pos : ℕ → ℕ) (p : ℕ → Finset ℕ) : Prop := ∀ v ∈ Icc 1 n, pos v ∈ p v

section
variable {n start : ℕ} {pos : ℕ → ℕ} {p : ℕ → Finset ℕ}

theorem Kept.domainSetFalse (h : Kept n pos p) {I T : ℕ} (hne : I ∈ Icc 1 n → pos I ≠ T) :
    Kept n pos (domainSetFalse p I T) := by
  intro v hv
  unfold Graph.domainSetFalse
  by_cases hvI : v = I
  · subst hvI
    rw [Function.update_self]
    exact mem_erase.2 ⟨hne hv, h v hv⟩
  · rw [Function.update_of_ne hvI]
    exact h v hv

theorem Kept.foldl {f : (ℕ → Finset ℕ) → ℕ → ℕ → Finset ℕ} {l : List ℕ} (h : Kept n pos p)
    (hf : ∀ T ∈ l, ∀ q, Kept n pos q → Kept n pos (f q T)) : Kept n pos (l.foldl f p) := by
  induction l generalizing p with
  | nil => exact h
  | cons T l ih =>
    exact ih (hf T List.mem_cons_self p h) (fun T' hT' => hf T' (List.mem_cons_of_mem _ hT'))

theorem Kept.range (h : Kept n pos p) {I lo hi : ℕ} (hne : I ∈ Icc 1 n → ¬ (lo ≤ pos I ∧ pos I ≤ hi)) :
    Kept n pos (domainSetFalseRange p I lo hi) := by
  unfold domainSetFalseRange
  apply h.foldl
  intro T hT q hq
  rw [List.mem_range'_1] at hT
  apply hq.domainSetFalse
  rintro hI rfl
  exact hne hI ⟨hT.1, by omega⟩

theorem Kept.excludeUnreachable {max t : ℕ} (e : ℕ) (dom : List ℕ) (hsorted : dom.Pairwise (· < ·))
    (h : Kept n pos p) (hdom : ∀ v ∈ Icc 1 n, e ≤ v → pos v = t → v ∈ dom) :
    Kept n pos (circuitExcludeUnreachable max t e dom p) := by
  induction e, dom, p using circuitExcludeUnreachable.induct max t with
  | case1 e dom p he =>
    unfold circuitExcludeUnreachable
    rw [if_pos he]
    exact h
  | case2 e p he ih =>
    unfold circuitExcludeUnreachable
    rw [if_neg he]
    refine ih hsorted (h.domainSetFalse ?_) ?_
    · intro hI hpos
      exact absurd (hdom e hI (le_refl e) hpos) List.not_mem_nil
    · intro v hv hle hpos
      exact hdom v hv (by omega) hpos
  | case3 e p dom he ih =>
    unfold circuitExcludeUnreachable
    rw [if_neg he]
    simp only [if_true]
    apply ih hsorted.of_cons h
    intro v hv hle hpos
    rcases List.mem_cons.1 (hdom v hv (by omega) hpos) with heq | hmem
    · omega
    · exact hmem
  | case4 e p he ed dom hne hlt ih =>
    unfold circuitExcludeUnreachable
    rw [if_neg he]
    simp only [if_neg hne, if_pos hlt]
    apply ih hsorted.of_cons h
    intro v hv hle hpos
    rcases List.mem_cons.1 (hdom v hv hle hpos) with heq | hmem
    · omega
    · exact hmem
  | case5 e p he ed dom hne hlt ih =>
    unfold circuitExcludeUnreachable
    rw [if_neg he]
    simp only [if_neg hne, if_neg hlt]
    refine ih hsorted (h.domainSetFalse ?_) ?_
    · intro hI hpos
      rcases List.mem_cons.1 (hdom e hI (le_refl e) hpos) with heq | hmem
      · exact hne heq.symm
      · have := List.rel_of_pairwise_cons hsorted hmem
        omega
    · intro v hv hle hpos
      exact hdom v hv (by omega) hpos

/-! ## Frontiers -/

theorem sorted_expand (neibVect : ℕ → List ℕ) (front : List ℕ) :
    (circuitExpand start neibVect front).Pairwise (· < ·) := by
  unfold circuitExpand
  exact (Finset.sortedLT_sort _).pairwise

theorem mem_expand {neibVect : ℕ → List ℕ} {rank : ℕ → ℕ} (hr : Ranked n start neibVect rank) {front : List ℕ} {t : ℕ}
    (hfront : ∀ u ∈ Icc 1 n, rank u = t → u ∈ front) :
    ∀ v ∈ Icc 1 n, rank v = t + 1 → v ∈ circuitExpand start neibVect front := by
  intro v hv hrank
  have hne : v ≠ start := by
    rintro rfl
    rw [hr.atStart] at hrank
    omega
  obtain ⟨u, hu, hru, hmem⟩ := hr.pred v hv hne
  unfold circuitExpand
  rw [Finset.mem_sort, List.mem_toFinset, List.mem_flatMap]
  exact ⟨u, hfront u hu (by omega), List.mem_filter.2 ⟨hmem, by simpa using hne⟩⟩

section
variable {neibVect tNeibVect : ℕ → List ℕ} (hplaced : Placed n start neibVect tNeibVect pos)
include hplaced

omit hplaced in
theorem Placed.exists_later (h : Placed n start neibVect tNeibVect pos) (k : ℕ) {v : ℕ} (hv : v ∈ Icc 1 n)
    (hne : v ≠ start) (hk : pos v + k ≤ n) : ∃ w ∈ Icc 1 n, pos w = pos v + k := by
  induction k with
  | zero => exact ⟨v, hv, rfl⟩
  | succ k ih =>
    obtain ⟨w, hw, hpos⟩ := ih (by omega)
    have hv1 := (mem_Icc.1 (h.mem v hv)).1
    have hwne : w ≠ start := by
      rintro rfl
      rw [h.atStart] at hpos
      exact hne (h.forward.eq_start hv (by omega))
    obtain ⟨u, hu, hr, -⟩ := h.backward.pred w hw hwne
    rw [if_neg hwne] at hr
    split_ifs at hr
    · omega
    · exact ⟨u, hu, by omega⟩

omit hplaced in
theorem Placed.exists_earlier (h : Placed n start neibVect tNeibVect pos) (k : ℕ) {v q : ℕ} (hv : v ∈ Icc 1 n)
    (hq : 1 ≤ q) (hk : pos v = q + k) : ∃ w ∈ Icc 1 n, pos w = q := by
  induction k generalizing v with
  | zero => exact ⟨v, hv, hk⟩
  | succ k ih =>
    have hne : v ≠ start := by
      rintro rfl
      rw [h.atStart] at hk
      omega
    obtain ⟨u, hu, hr, -⟩ := h.forward.pred v hv hne
    have hu1 := (mem_Icc.1 (h.mem u hu)).1
    exact ih hu (by omega)

omit hplaced in
theorem Placed.not_between (h : Placed n start neibVect tNeibVect pos) {v x1 x2 q t : ℕ} {front : List ℕ}
    (hv : v ∈ Icc 1 n) (hx : v = x1 ∨ v = x2) (hfront : front = [x1, x2])
    (hmem : ∀ w ∈ Icc 1 n, pos w = q ∨ pos w = t → w ∈ front) (hlo : q < pos v) (hhi : pos v < t) (hq : 1 ≤ q)
    (ht : t ≤ n) : False := by
  have hne : v ≠ start := by
    rintro rfl
    rw [h.atStart] at hlo
    omega
  obtain ⟨w, hw, hpw⟩ := h.exists_earlier (pos v - q) hv hq (by omega)
  obtain ⟨w', hw', hpw'⟩ := h.exists_later (t - pos v) hv hne (by omega)
  have h1 := hmem w hw (.inl hpw)
  have h2 := hmem w' hw' (.inr (by omega))
  rw [hfront] at h1 h2
  simp only [List.mem_cons, List.not_mem_nil, or_false] at h1 h2
  rcases hx with rfl | rfl <;> rcases h1 with rfl | rfl <;> rcases h2 with rfl | rfl <;> omega

theorem kept_reasonForward (steps t : ℕ) (front : List ℕ) (p : ℕ → Finset ℕ)
    (hfront : ∀ u ∈ Icc 1 n, pos u - 1 = t - 1 → u ∈ front) (ht : 1 ≤ t) (h : Kept n pos p) :
    Kept n pos (circuitReasonForward n start neibVect steps t front p).1 := by
  induction steps generalizing t front p with
  | zero => exact h
  | succ steps ih =>
    unfold circuitReasonForward
    split_ifs with hsize
    · have hnext : ∀ v ∈ Icc 1 n, pos v - 1 = t - 1 + 1 → v ∈ circuitExpand start neibVect front :=
        mem_expand hplaced.forward hfront
      refine ih (t + 1) _ _ ?_ (by omega) (h.excludeUnreachable 1 _ (sorted_expand _ _) ?_)
      · intro v hv hpos
        exact hnext v hv (by omega)
      · intro v hv _ hpos
        exact hnext v hv (by omega)
    · exact h

/-- The backward frontier at time `t` holds the node at place `t` and, in a symmetric graph, the node at the same
number of steps after the start. -/
theorem kept_reasonBackward {undirected : Bool} (hsymm : undirected = true → ∀ I ∈ Icc 1 n, neibVect I = tNeibVect I)
    (steps : ℕ) (front : List ℕ) (p : ℕ → Finset ℕ) (hsteps : steps + 1 ≤ n)
    (hfront : ∀ u ∈ Icc 1 n, (if u = start then 0 else n + 1 - pos u) = n - (steps + 1) → u ∈ front)
    (hback : undirected = true → ∀ u ∈ Icc 1 n, pos u - 1 = n - (steps + 1) → u ∈ front) (h : Kept n pos p) :
    Kept n pos (circuitReasonBackward n start tNeibVect undirected steps front p).1 := by
  induction steps generalizing front p with
  | zero => exact h
  | succ steps ih =>
    unfold circuitReasonBackward
    by_cases hsize : front.length ≤ 512 ∧ front.length < n - 1
    · rw [if_pos hsize]
      have hnext : ∀ v ∈ Icc 1 n, (if v = start then 0 else n + 1 - pos v) = n - (steps + 1 + 1) + 1 →
          v ∈ circuitExpand start tNeibVect front := mem_expand hplaced.backward hfront
      have hnext' : undirected = true → ∀ v ∈ Icc 1 n, pos v - 1 = n - (steps + 1 + 1) + 1 →
          v ∈ circuitExpand start tNeibVect front := by
        intro hu
        have hranked : Ranked n start tNeibVect fun v => pos v - 1 := by
          refine ⟨hplaced.forward.atStart, ?_⟩
          intro v hv hne
          obtain ⟨u, huN, hr, hmem⟩ := hplaced.forward.pred v hv hne
          rw [hsymm hu u huN] at hmem
          exact ⟨u, huN, hr, hmem⟩
        exact mem_expand hranked (hback hu)
      -- the node at place `steps + 2`
      have hat : ∀ v ∈ Icc 1 n, pos v = steps + 2 → v ∈ circuitExpand start tNeibVect front := by
        intro v hv hpos
        have hne : v ≠ start := by
          rintro rfl
          rw [hplaced.atStart] at hpos
          omega
        refine hnext v hv ?_
        rw [if_neg hne]
        omega
      have hex : Kept n pos (circuitExcludeUnreachable n (steps + 2) 1 (circuitExpand start tNeibVect front) p) :=
        h.excludeUnreachable 1 _ (sorted_expand _ _) (fun v hv _ hpos => hat v hv hpos)
      refine ih _ _ (by omega) ?_ ?_ ?_
      · intro v hv hr
        exact hnext v hv (by omega)
      · intro hu v hv hr
        exact hnext' hu v hv (by omega)
      · by_cases hu : undirected = true
        · rw [if_pos hu]
          split
          · rename_i x1 x2 hfront1
            refine hex.foldl ?_
            intro TT hTT q hq
            rw [List.mem_range'_1] at hTT
            have hplace : ∀ v ∈ Icc 1 n, v = x1 ∨ v = x2 → pos v ≠ TT := by
              rintro v hv hx rfl
              refine hplaced.not_between hv hx hfront1 ?_
                (by omega : n - (steps + 2) + 2 < pos v) (by omega : pos v < steps + 2) (by omega) (by omega)
              intro w hw hpw
              rcases hpw with hpw | hpw
              · exact hnext' hu w hw (by omega)
              · exact hat w hw hpw
            exact (hq.domainSetFalse fun hI => hplace _ hI (.inl rfl)).domainSetFalse fun hI => hplace _ hI (.inr rfl)
          · exact hex
        · rw [if_neg hu]
          exact hex
    · rw [if_neg hsize]
      exact h

end

end

/-! ## Shortest distances -/

section
variable {n start d : ℕ} {neibVect : ℕ → List ℕ} {heap heap' : List (ℕ ×ₗ ℕ)} {dist dist' : ℕ → ℕ} {js : List ℕ}

/-- The work left: entries of the heap and distances that may still shrink. -/
def work (n : ℕ) (heap : List (ℕ ×ₗ ℕ)) (dist : ℕ → ℕ) : ℕ := heap.length + ∑ v ∈ Icc 1 n, dist v

theorem work_relax (hjs : ∀ j ∈ js, j ∈ Icc 1 n) :
    work n (relax d js heap dist).1 (relax d js heap dist).2 ≤ work n heap dist := by
  induction js generalizing heap dist with
  | nil => exact le_refl _
  | cons j js ih =>
    unfold relax
    split_ifs with hle
    · exact ih fun j' hj' => hjs j' (List.mem_cons_of_mem _ hj')
    · refine (ih fun j' hj' => hjs j' (List.mem_cons_of_mem _ hj')).trans ?_
      have hj := hjs j List.mem_cons_self
      have hsum : ∑ v ∈ Icc 1 n, Function.update dist j d v < ∑ v ∈ Icc 1 n, dist v := by
        refine sum_lt_sum (fun v _ => ?_) ⟨j, hj, ?_⟩
        · by_cases hv : v = j
          · rw [hv, Function.update_self]
            omega
          · rw [Function.update_of_ne hv]
        · rw [Function.update_self]
          omega
      unfold work
      rw [List.orderedInsert_length]
      omega

/-- What one round of relaxation does to the distances. -/
structure Relaxed (d : ℕ) (js : List ℕ) (heap heap' : List (ℕ ×ₗ ℕ)) (dist dist' : ℕ → ℕ) : Prop where
  mono : ∀ v, dist' v ≤ dist v
  done : ∀ v ∈ js, dist' v ≤ d
  pushed : ∀ v, dist' v = dist v ∨ toLex (dist' v, v) ∈ heap'
  kept : ∀ pair ∈ heap, pair ∈ heap'

theorem relaxed : Relaxed d js heap (relax d js heap dist).1 dist (relax d js heap dist).2 := by
  induction js generalizing heap dist with
  | nil => exact ⟨fun _ => le_refl _, fun _ h => absurd h List.not_mem_nil, fun _ => .inl rfl, fun _ h => h⟩
  | cons j js ih =>
    unfold relax
    split_ifs with hle
    · have h := @ih heap dist
      refine ⟨h.mono, ?_, h.pushed, h.kept⟩
      intro v hv
      rcases List.mem_cons.1 hv with rfl | hv
      · exact (h.mono v).trans hle
      · exact h.done v hv
    · have h := @ih (heap.orderedInsert (· ≤ ·) (toLex (d, j))) (Function.update dist j d)
      have hj : ∀ v, Function.update dist j d v ≤ dist v := by
        intro v
        by_cases hv : v = j
        · rw [hv, Function.update_self]
          omega
        · rw [Function.update_of_ne hv]
      refine ⟨fun v => (h.mono v).trans (hj v), ?_, ?_, ?_⟩
      · intro v hv
        rcases List.mem_cons.1 hv with rfl | hv
        · have := h.mono v
          rwa [Function.update_self] at this
        · exact h.done v hv
      · intro v
        rcases h.pushed v with heq | hmem
        · by_cases hv : v = j
          · right
            subst hv
            rw [Function.update_self] at heq
            rw [heq]
            exact h.kept _ ((List.mem_orderedInsert _).2 (.inl rfl))
          · left
            rwa [Function.update_of_ne hv] at heq
        · exact .inr hmem
      · intro pair hp
        exact h.kept pair ((List.mem_orderedInsert _).2 (.inr hp))

/-- Every node with a distance is in the heap with it, or its neighbours are one step on at most. -/
structure Settling (n start : ℕ) (neibVect : ℕ → List ℕ) (heap : List (ℕ ×ₗ ℕ)) (dist : ℕ → ℕ) : Prop where
  atStart : dist start = 0
  le : ∀ v, dist v ≤ n
  settled : ∀ u, dist u < n → toLex (dist u, u) ∈ heap ∨ ∀ v ∈ neibVect u, dist v ≤ dist u + 1

theorem Settling.pop {pair : ℕ ×ₗ ℕ} (h : Settling n start neibVect (pair :: heap) dist)
    (hr : Relaxed ((ofLex pair).1 + 1) (neibVect (ofLex pair).2) heap heap' dist dist') :
    Settling n start neibVect heap' dist' := by
  refine ⟨?_, fun v => (hr.mono v).trans (h.le v), ?_⟩
  · have := hr.mono start
    rw [h.atStart] at this
    omega
  · intro u hu
    rcases hr.pushed u with heq | hmem
    · rw [heq] at hu ⊢
      rcases h.settled u hu with hmem | hclosed
      · rcases List.mem_cons.1 hmem with heq' | hmem
        · -- the pair that was popped: its neighbours have just been relaxed
          right
          rw [← heq'] at hr
          exact hr.done
        · exact .inl (hr.kept _ hmem)
      · right
        intro v hv
        exact (hr.mono v).trans (hclosed v hv)
    · exact .inl hmem

theorem heap_relax {m : ℕ} (hjs : ∀ j ∈ js, j ∈ Icc 1 m) (hheap : ∀ pair ∈ heap, (ofLex pair).2 ∈ Icc 1 m) :
    ∀ pair ∈ (relax d js heap dist).1, (ofLex pair).2 ∈ Icc 1 m := by
  induction js generalizing heap dist with
  | nil => exact hheap
  | cons j js ih =>
    have hjs' : ∀ j' ∈ js, j' ∈ Icc 1 m := fun j' hj' => hjs j' (List.mem_cons_of_mem _ hj')
    unfold relax
    split_ifs with hle
    · exact ih hjs' hheap
    · apply ih hjs'
      intro pair hp
      rcases (List.mem_orderedInsert _).1 hp with rfl | hp
      · exact hjs j List.mem_cons_self
      · exact hheap pair hp

theorem exists_shortestDistance {m : ℕ} (hneib : ∀ u ∈ Icc 1 m, ∀ v ∈ neibVect u, v ∈ Icc 1 m)
    (hheap : ∀ pair ∈ heap, (ofLex pair).2 ∈ Icc 1 m) {fuel : ℕ} (hfuel : work m heap dist ≤ fuel)
    (h : Settling n start neibVect heap dist) :
    ∃ dist', circuitShortestDistance neibVect fuel heap dist = some dist' ∧ Settling n start neibVect [] dist' := by
  induction fuel generalizing heap dist with
  | zero =>
    cases heap with
    | nil => exact ⟨dist, rfl, h⟩
    | cons pair heap =>
      unfold work at hfuel
      rw [List.length_cons] at hfuel
      omega
  | succ fuel ih =>
    cases heap with
    | nil => exact ⟨dist, rfl, h⟩
    | cons pair heap =>
      unfold circuitShortestDistance
      have hjs := hneib _ (hheap pair List.mem_cons_self)
      refine ih (heap_relax hjs fun p hp => hheap p (List.mem_cons_of_mem _ hp)) ?_ (h.pop relaxed)
      apply (work_relax hjs).trans
      unfold work at hfuel ⊢
      rw [List.length_cons] at hfuel
      omega

theorem Settling.le_rank {rank : ℕ → ℕ} (h : Settling n start neibVect [] dist)
    (hr : Ranked n start neibVect rank) : ∀ v ∈ Icc 1 n, dist v ≤ rank v := by
  have hle : ∀ k, ∀ v ∈ Icc 1 n, rank v = k → dist v ≤ k := by
    intro k
    induction k with
    | zero =>
      intro v hv h0
      rw [hr.eq_start hv h0, h.atStart]
    | succ k ih =>
      intro v hv hk
      have hne : v ≠ start := by
        rintro rfl
        rw [hr.atStart] at hk
        omega
      obtain ⟨u, hu, hru, hmem⟩ := hr.pred v hv hne
      have hdu := ih u hu (by omega)
      by_cases hlt : dist u < n
      · rcases h.settled u hlt with hin | hclosed
        · exact absurd hin List.not_mem_nil
        · have := hclosed v hmem
          omega
      · have := h.le v
        omega
  intro v hv
  exact hle _ v hv rfl

variable (start) in
theorem exists_shortestDistance0 (hstart : start ∈ Icc 1 n) (hneib : ∀ u, ∀ v ∈ neibVect u, v ∈ Icc 1 n) :
    ∃ dist, circuitShortestDistance0 n start neibVect = some dist ∧
      ∀ rank, Ranked n start neibVect rank → ∀ v ∈ Icc 1 n, dist v ≤ rank v := by
  have hwork : work n [toLex (0, start)] (Function.update (fun _ => n) start 0) ≤ 1 + n * n := by
    unfold work
    rw [List.length_singleton]
    have hle : ∑ v ∈ Icc 1 n, Function.update (fun _ => n) start 0 v ≤ ∑ _v ∈ Icc 1 n, n := by
      apply sum_le_sum
      intro v _
      by_cases hv : v = start
      · rw [hv, Function.update_self]
        exact Nat.zero_le n
      · rw [Function.update_of_ne hv]
    rw [sum_const_nat (fun _ _ => rfl), Nat.card_Icc, Nat.add_sub_cancel] at hle
    omega
  have hinit : Settling n start neibVect [toLex (0, start)] (Function.update (fun _ => n) start 0) := by
    refine ⟨Function.update_self .., ?_, ?_⟩
    · intro v
      by_cases hv : v = start
      · rw [hv, Function.update_self]
        exact Nat.zero_le n
      · rw [Function.update_of_ne hv]
    · intro u hu
      by_cases hus : u = start
      · left
        rw [hus, Function.update_self]
        exact List.mem_singleton.2 rfl
      · rw [Function.update_of_ne hus] at hu
        omega
  have hheap : ∀ pair ∈ [toLex (0, start)], (ofLex pair).2 ∈ Icc 1 n := by
    intro pair hp
    rw [List.mem_singleton.1 hp]
    exact hstart
  obtain ⟨dist, hok, hdone⟩ := exists_shortestDistance (fun u _ => hneib u) hheap hwork hinit
  exact ⟨dist, hok, fun rank hr => hdone.le_rank hr⟩

end

section
variable {n start : ℕ} {pos : ℕ → ℕ} {p : ℕ → Finset ℕ} {neibVect tNeibVect : ℕ → List ℕ}

theorem kept_distances (hplaced : Placed n start neibVect tNeibVect pos) {sdFrom sdTo : ℕ → ℕ}
    (hfrom : ∀ v ∈ Icc 1 n, sdFrom v ≤ pos v - 1)
    (hto : ∀ v ∈ Icc 1 n, sdTo v ≤ if v = start then 0 else n + 1 - pos v) (h : Kept n pos p) :
    Kept n pos (((List.range' 1 n).filter (· ≠ start)).foldl (fun p I =>
      domainSetFalseRange (domainSetFalseRange p I 1 (sdFrom I)) I (n - sdTo I + 2) n) p) := by
  apply h.foldl
  intro I hI q hq
  obtain ⟨hmem, hne⟩ := List.mem_filter.1 hI
  rw [List.mem_range'_1] at hmem
  have hI' : I ∈ Icc 1 n := mem_Icc.2 ⟨hmem.1, by omega⟩
  have hne' : I ≠ start := of_decide_eq_true hne
  have hp := mem_Icc.1 (hplaced.mem I hI')
  refine (hq.range ?_).range ?_
  · rintro - ⟨-, hhi⟩
    have := hfrom I hI'
    omega
  · rintro - ⟨hlo, -⟩
    have := hto I hI'
    rw [if_neg hne'] at this
    omega

/-- The preprocessing ends, and the places of every cycle from the start stay in the domains. -/
theorem exists_circuitPreprocess (hstart : start ∈ Icc 1 n) (hneib : ∀ u, ∀ v ∈ neibVect u, v ∈ Icc 1 n)
    (htneib : ∀ u, ∀ v ∈ tNeibVect u, v ∈ Icc 1 n) (p : ℕ → Finset ℕ) :
    ∃ p', circuitPreprocess n start neibVect tNeibVect p = some p' ∧
      ∀ pos, Placed n start neibVect tNeibVect pos → Kept n pos p → Kept n pos p' := by
  have hn : 1 ≤ n := by
    have := mem_Icc.1 hstart
    omega
  obtain ⟨sdFrom, hokF, hrankF⟩ := exists_shortestDistance0 start hstart hneib
  obtain ⟨sdTo, hokT, hrankT⟩ := exists_shortestDistance0 start hstart htneib
  unfold circuitPreprocess
  set undirected := (List.range' 1 n).all fun I => decide (neibVect I = tNeibVect I) with hund
  have hsymm : undirected = true → ∀ I ∈ Icc 1 n, neibVect I = tNeibVect I := by
    intro h I hI
    rw [mem_Icc] at hI
    exact of_decide_eq_true (List.all_eq_true.1 h I (List.mem_range'_1.2 ⟨hI.1, by omega⟩))
  set f := circuitReasonForward n start neibVect (n - 1) 1 [start] p with hf
  set b := circuitReasonBackward n start tNeibVect undirected (n - 1) [start] f.1 with hb
  have hkept : ∀ pos, Placed n start neibVect tNeibVect pos → Kept n pos p → Kept n pos b.1 := by
    intro pos hplaced h
    have hfront : ∀ u ∈ Icc 1 n, pos u - 1 = 0 → u ∈ [start] := fun u hu h0 =>
      List.mem_singleton.2 (hplaced.forward.eq_start hu h0)
    refine kept_reasonBackward hplaced hsymm (n - 1) [start] _ (by omega) ?_ ?_
      (kept_reasonForward hplaced (n - 1) 1 [start] p hfront (le_refl 1) h)
    · intro u hu h0
      exact List.mem_singleton.2 (hplaced.backward.eq_start hu (h0.trans (by omega)))
    · intro _ u hu h0
      exact hfront u hu (by omega)
  by_cases hdone : (f.2 || b.2) = true
  · refine ⟨_, (if_pos hdone).trans (by rw [hokF, hokT]), ?_⟩
    intro pos hplaced h
    exact kept_distances hplaced (hrankF _ hplaced.forward) (hrankT _ hplaced.backward) (hkept pos hplaced h)
  · exact ⟨b.1, if_neg hdone, hkept⟩

end

end Picat.Graph

/-! # `circuit`: one cycle through all nodes -/

namespace Picat.Graph
open Finset Cycles

variable {ι : Type} [DecidableEq ι]

section
variable (n : ℕ) (A : ℕ → ι) (dom : ι → Finset ℕ)

/-- The domains after `A :: 1..N` and `bp.domain_set_false(A[I],I)` for every `I`. -/
def notReflexive : ι → Finset ℕ :=
  (List.range' 1 n).foldl (fun d I => Function.update d (A I) ((d (A I)).erase I)) (fun x => dom x ∩ Icc 1 n)

/-- `fd_true(A[I],J)`: the cell `H[I,J]` is left free. -/
def free (I J : ℕ) : Prop := J ∈ notReflexive n A dom (A I)

instance (I J : ℕ) : Decidable (free n A dom I J) := inferInstanceAs (Decidable (_ ∈ _))

def neibs (I : ℕ) : List ℕ := (List.range' 1 n).filter fun J => free n A dom I J

def tNeibs (I : ℕ) : List ℕ := (List.range' 1 n).filter fun J => free n A dom J I

def circuitChooseStart (fdSize : ℕ → ℕ) : (steps : ℕ) → (curIndex curDeg I : ℕ) → ℕ
  | 0, curIndex, _, _ => curIndex
  | steps + 1, curIndex, curDeg, I =>
    if fdSize I < curDeg then circuitChooseStart fdSize steps I (fdSize I) (I + 1)
    else circuitChooseStart fdSize steps curIndex curDeg (I + 1)

/-- `Start`, with `P[Start] = 1`. -/
def startOf (fdSize : ℕ → ℕ) : ℕ := circuitChooseStart fdSize n 1 (fdSize 1) 1

def positions (start : ℕ) (I : ℕ) : Finset ℕ := if I = start then {1} else Icc 1 n

end

structure CircuitSeen where
  /-- `H[I,J] == 0` in the loop that channels -/
  channel : ℕ → ℕ → Bool
  fdSize : ℕ → ℕ
  /-- `H[I,J] == 0` in the last loop -/
  step : ℕ → ℕ → Bool

section
variable (n : ℕ) (A : ℕ → ι) (dom : ι → Finset ℕ) (seen : CircuitSeen) (σ : ι → ℕ) (h : ℕ → ℕ → Bool) (p : ℕ → ℕ)

/-- What `circuit_aux` posts for two nodes or more. -/
structure CircuitAux : Prop where
  inDom : ∀ I ∈ Icc 1 n, σ (A I) ∈ notReflexive n A dom (A I)
  cell : ∀ I ∈ Icc 1 n, ∀ J ∈ Icc 1 n, ¬ free n A dom I J → h I J = false
  channel : ∀ I ∈ Icc 1 n, ∀ J ∈ Icc 1 n, I ≠ J → free n A dom I J → seen.channel I J = false →
    (h I J = true ↔ σ (A I) = J) ∧ (2 < n → h I J = false ∨ h J I = false)
  into : ∀ I ∈ Icc 1 n, count (Icc 1 n) (fun J => h J I) = 1
  atStart : p (startOf n seen.fdSize) = 1
  places : ∀ I ∈ Icc 1 n, p I ∈ Icc 1 n
  pos : ∃ pd, circuitPreprocess n (startOf n seen.fdSize) (neibs n A dom) (tNeibs n A dom)
    (positions n (startOf n seen.fdSize)) = some pd ∧ ∀ I ∈ Icc 1 n, p I ∈ pd I
  second : ∀ I ∈ Icc 1 n, I ≠ startOf n seen.fdSize → h (startOf n seen.fdSize) I = true → p I = 2
  last : ∀ I ∈ Icc 1 n, I ≠ startOf n seen.fdSize → h I (startOf n seen.fdSize) = true → p I = n
  step : ∀ I ∈ Icc 1 n, I ≠ startOf n seen.fdSize → ∀ J ∈ Icc 1 n, J ≠ startOf n seen.fdSize →
    free n A dom I J → seen.step I J = false → h I J = true → p J = p I + 1

def circuitAux : Prop := if n = 1 then σ (A 1) = 1 else CircuitAux n A dom seen σ h p

end

def CircuitSeen.Sound (seen : CircuitSeen) (n : ℕ) (A : ℕ → ι) (dom : ι → Finset ℕ) : Prop :=
  ∀ σ h p, CircuitAux n A dom seen σ h p → ∀ I ∈ Icc 1 n, ∀ J ∈ Icc 1 n,
    (seen.channel I J = true → h I J = false) ∧ (seen.step I J = true → h I J = false)

/-! ## Domains and start -/

section
variable {n : ℕ} {A : ℕ → ι} {dom : ι → Finset ℕ} {seen : CircuitSeen} {σ : ι → ℕ} {h : ℕ → ℕ → Bool} {p : ℕ → ℕ}

theorem mem_foldl_erase (l : List ℕ) (d : ι → Finset ℕ) (x : ι) (v : ℕ) :
    v ∈ l.foldl (fun d I => Function.update d (A I) ((d (A I)).erase I)) d x ↔ v ∈ d x ∧ ¬ (v ∈ l ∧ A v = x) := by
  induction l generalizing d with
  | nil => simp
  | cons I l ih =>
    rw [List.foldl_cons, ih]
    by_cases hx : x = A I
    · subst hx
      rw [Function.update_self, mem_erase, List.mem_cons]
      constructor
      · intro h
        obtain ⟨⟨hne, hv⟩, hno⟩ := h
        exact ⟨hv, fun ⟨hor, hA⟩ => hor.elim hne fun hm => hno ⟨hm, hA⟩⟩
      · intro h
        obtain ⟨hv, hno⟩ := h
        refine ⟨⟨?_, hv⟩, fun ⟨hm, hA⟩ => hno ⟨.inr hm, hA⟩⟩
        rintro rfl
        exact hno ⟨.inl rfl, rfl⟩
    · rw [Function.update_of_ne hx, List.mem_cons]
      refine and_congr_right fun _ => not_congr (and_congr_left fun hA => ?_)
      constructor
      · exact .inr
      · rintro (rfl | hm)
        · exact absurd hA.symm hx
        · exact hm

theorem mem_notReflexive {x : ι} {v : ℕ} : v ∈ notReflexive n A dom x ↔ (v ∈ dom x ∧ v ∈ Icc 1 n) ∧ A v ≠ x := by
  unfold notReflexive
  rw [mem_foldl_erase, mem_inter]
  apply and_congr_right
  intro hv
  have hmem : v ∈ List.range' 1 n := by
    have := mem_Icc.1 hv.2
    exact List.mem_range'_1.2 ⟨this.1, by omega⟩
  rw [not_and]
  exact forall_prop_of_true hmem

theorem free_mem {I J : ℕ} (hf : free n A dom I J) : J ∈ Icc 1 n := (mem_notReflexive.1 hf).1.2

theorem mem_neibs {I J : ℕ} : J ∈ neibs n A dom I ↔ free n A dom I J := by
  unfold neibs
  rw [List.mem_filter, decide_eq_true_eq]
  apply and_iff_right_of_imp
  intro hf
  have := mem_Icc.1 (free_mem hf)
  exact List.mem_range'_1.2 ⟨this.1, by omega⟩

theorem tNeibs_mem {I J : ℕ} (hJ : J ∈ tNeibs n A dom I) : J ∈ Icc 1 n := by
  unfold tNeibs at hJ
  have hmem := List.mem_range'_1.1 (List.mem_filter.1 hJ).1
  exact mem_Icc.2 ⟨hmem.1, by omega⟩

theorem mem_tNeibs {I J : ℕ} (hJ : J ∈ Icc 1 n) : J ∈ tNeibs n A dom I ↔ free n A dom J I := by
  unfold tNeibs
  rw [List.mem_filter, decide_eq_true_eq]
  apply and_iff_right
  have := mem_Icc.1 hJ
  exact List.mem_range'_1.2 ⟨this.1, by omega⟩

theorem chooseStart_mem {fdSize : ℕ → ℕ} {steps curIndex curDeg I : ℕ} (hcur : curIndex ∈ Icc 1 n) (hI : 1 ≤ I)
    (hn : I + steps ≤ n + 1) : circuitChooseStart fdSize steps curIndex curDeg I ∈ Icc 1 n := by
  induction steps generalizing curIndex curDeg I with
  | zero => exact hcur
  | succ steps ih =>
    unfold circuitChooseStart
    split_ifs
    · exact ih (mem_Icc.2 ⟨hI, by omega⟩) (by omega) (by omega)
    · exact ih hcur (by omega) (by omega)

theorem startOf_mem {fdSize : ℕ → ℕ} (hn : 1 ≤ n) : startOf n fdSize ∈ Icc 1 n :=
  chooseStart_mem (mem_Icc.2 ⟨le_refl 1, hn⟩) (le_refl 1) (by omega)

/-! ## Soundness -/

def Succ (n : ℕ) (A : ℕ → ι) (σ : ι → ℕ) (I J : ℕ) : Prop := I ∈ Icc 1 n ∧ σ (A I) = J

theorem CircuitAux.h_iff (hx : CircuitAux n A dom seen σ h p) (hsound : seen.Sound n A dom) :
    (∀ I ∈ Icc 1 n, ∀ J ∈ Icc 1 n, h I J = true ↔ σ (A I) = J) ∧ Set.InjOn (fun I => σ (A I)) (Icc 1 n : Finset ℕ) := by
  have hrow : ∀ I ∈ Icc 1 n, ∀ J ∈ Icc 1 n, h I J = true → σ (A I) = J := by
    intro I hI J hJ ht
    have hfree : free n A dom I J := by
      by_contra hno
      rw [hx.cell I hI J hJ hno] at ht
      exact Bool.false_ne_true ht
    have hne : I ≠ J := by
      rintro rfl
      exact (mem_notReflexive.1 hfree).2 rfl
    have hseen : seen.channel I J = false := by
      by_contra hs
      rw [Bool.not_eq_false] at hs
      rw [(hsound σ h p hx I hI J hJ).1 hs] at ht
      exact Bool.false_ne_true ht
    exact (hx.channel I hI J hJ hne hfree hseen).1.1 ht
  exact matrix_iff (fun I hI => (mem_notReflexive.1 (hx.inDom I hI)).1.2) hrow hx.into

omit [DecidableEq ι] in
theorem linked_succ (hmaps : ∀ I ∈ Icc 1 n, σ (A I) ∈ Icc 1 n)
    (hinj : Set.InjOn (fun I => σ (A I)) (Icc 1 n : Finset ℕ)) : Linked (Succ n A σ) (Icc 1 n) := by
  have hsurj := Finset.surjOn_of_injOn_of_card_le (s := Icc 1 n) (t := Icc 1 n) (fun I => σ (A I))
    (fun I hI => mem_coe.2 (hmaps I (mem_coe.1 hI))) hinj (le_refl _)
  refine ⟨?_, ?_, ?_⟩
  · rintro I J ⟨hI, rfl⟩
    exact ⟨hI, hmaps I hI⟩
  · intro I hI
    exact ⟨σ (A I), ⟨hI, rfl⟩, fun J hJ => hJ.2.symm⟩
  · intro J hJ
    obtain ⟨I, hI, heq⟩ := hsurj (mem_coe.2 hJ)
    exact ⟨I, ⟨mem_coe.1 hI, heq⟩, fun K hK => hinj (mem_coe.2 hK.1) hI (hK.2.trans heq.symm)⟩

theorem iterate_add_one (k d : ℕ) : (· + 1)^[k] d = d + k := by
  induction k generalizing d with
  | zero => rfl
  | succ k ih =>
    rw [Function.iterate_succ_apply, ih]
    omega

theorem circuitAux_sound (hn : 2 ≤ n) (hx : CircuitAux n A dom seen σ h p) (hsound : seen.Sound n A dom) :
    OneCycle (Succ n A σ) (Icc 1 n) := by
  obtain ⟨hiff, hinj⟩ := hx.h_iff hsound
  have hmaps : ∀ I ∈ Icc 1 n, σ (A I) ∈ Icc 1 n := fun I hI => (mem_notReflexive.1 (hx.inDom I hI)).1.2
  have hstart : startOf n seen.fdSize ∈ Icc 1 n := startOf_mem (by omega)
  refine (linked_succ hmaps hinj).oneCycle_of_rank hstart p (· + 1) ?_ ?_
  · rintro I J ⟨hI, rfl⟩ hne
    have hJ := hmaps I hI
    have ht := (hiff I hI _ hJ).2 rfl
    by_cases hIs : I = startOf n seen.fdSize
    · rw [hIs] at ht hne ⊢
      rw [hx.second _ (hIs ▸ hJ) hne ht, hx.atStart]
    · refine hx.step I hI hIs _ hJ hne (hx.inDom I hI) ?_ ht
      by_contra hs
      rw [Bool.not_eq_false] at hs
      rw [(hsound σ h p hx I hI _ hJ).2 hs] at ht
      exact Bool.false_ne_true ht
  · intro I _ k hk _
    rw [iterate_add_one]
    omega

/-! ## Completeness -/

theorem placed_of_cycle (hcyc : OneCycle (Succ n A σ) (Icc 1 n))
    (hfree : ∀ I ∈ Icc 1 n, free n A dom I (σ (A I))) {start : ℕ} {pos : ℕ → ℕ} (hstart : start ∈ Icc 1 n)
    (h1 : pos start = 1) (hstep : ∀ I J, Succ n A σ I J → J ≠ start → pos J = pos I + 1) :
    Placed n start (neibs n A dom) (tNeibs n A dom) pos ∧ ∀ I, Succ n A σ I start → pos I = n := by
  obtain ⟨place, h0, hlt, hnext, hlast⟩ := hcyc.exists_position hstart
  -- the places are those of the cycle, one on
  have hpos : ∀ I ∈ Icc 1 n, pos I = place I + 1 := by
    intro I hI
    have hreach := hcyc.2 start hstart I hI
    clear hI
    induction hreach with
    | refl => rw [h1, h0]
    | @tail J K _ hJK ih =>
      by_cases hK : K = start
      · rw [hK, h1, h0]
      · rw [hstep J K hJK hK, hnext J K hJK hK, ih]
  have hcard : (Icc 1 n).card = n := by rw [Nat.card_Icc, Nat.add_sub_cancel]
  rw [hcard] at hlt hlast
  have hle : ∀ I ∈ Icc 1 n, pos I ≤ n := by
    intro I hI
    have := hlt I hI
    have := hpos I hI
    omega
  have hto : ∀ I, Succ n A σ I start → pos I = n := by
    intro I hI
    rw [hpos I hI.1]
    exact hlast I hI
  refine ⟨⟨?_, h1, ⟨by rw [h1], ?_⟩, ⟨if_pos rfl, ?_⟩⟩, hto⟩
  · intro I hI
    rw [mem_Icc]
    exact ⟨by rw [hpos I hI]; omega, hle I hI⟩
  · intro J hJ hne
    obtain ⟨I, hI, -⟩ := hcyc.1.into J hJ
    have hf := hfree I hI.1
    rw [hI.2] at hf
    refine ⟨I, hI.1, ?_, mem_neibs.2 hf⟩
    have h2 := hstep I J hI hne
    have h3 := hpos I hI.1
    omega
  · intro I hI hne
    have hJ := (hcyc.1.mem I (σ (A I)) ⟨hI, rfl⟩).2
    refine ⟨σ (A I), hJ, ?_, (mem_tNeibs hI).2 (hfree I hI)⟩
    rw [if_neg hne]
    by_cases hs : σ (A I) = start
    · rw [if_pos hs, hto I ⟨hI, hs⟩]
      omega
    · rw [if_neg hs]
      have h2 := hstep I _ ⟨hI, rfl⟩ hs
      have h3 := hle _ hJ
      omega

theorem exists_positions {start : ℕ} (hstart : start ∈ Icc 1 n) :
    ∃ pd, circuitPreprocess n start (neibs n A dom) (tNeibs n A dom) (positions n start) = some pd ∧
      ∀ pos, Placed n start (neibs n A dom) (tNeibs n A dom) pos → ∀ I ∈ Icc 1 n, pos I ∈ pd I := by
  have hneib : ∀ I, ∀ J ∈ neibs n A dom I, J ∈ Icc 1 n := fun I J hJ => free_mem (mem_neibs.1 hJ)
  have htneib : ∀ I, ∀ J ∈ tNeibs n A dom I, J ∈ Icc 1 n := fun I J hJ => tNeibs_mem hJ
  obtain ⟨pd, hok, hkept⟩ := exists_circuitPreprocess hstart hneib htneib (positions n start)
  refine ⟨pd, hok, ?_⟩
  intro pos hplaced
  apply hkept pos hplaced
  intro I hI
  unfold positions
  split_ifs with hs
  · rw [hs, hplaced.atStart]
    exact mem_singleton.2 rfl
  · exact hplaced.mem I hI

section
variable (hn : 2 ≤ n) (hσ : ∀ I ∈ Icc 1 n, σ (A I) ∈ dom (A I)) (hcyc : OneCycle (Succ n A σ) (Icc 1 n))
include hn hσ hcyc

theorem free_of_cycle : ∀ I ∈ Icc 1 n, free n A dom I (σ (A I)) := by
  intro I hI
  have hJ := (hcyc.1.mem I (σ (A I)) ⟨hI, rfl⟩).2
  refine mem_notReflexive.2 ⟨⟨hσ I hI, hJ⟩, ?_⟩
  intro hA
  have hfix : Succ n A σ (σ (A I)) (σ (A I)) := ⟨hJ, by rw [hA]⟩
  obtain ⟨place, h0, -, -, hlast⟩ := hcyc.exists_position hJ
  have hcard := hlast _ hfix
  rw [h0, Nat.card_Icc] at hcard
  omega

theorem exists_circuitAux : ∃ h p, CircuitAux n A dom seen σ h p := by
  have hfree := free_of_cycle hn hσ hcyc
  have hstart : startOf n seen.fdSize ∈ Icc 1 n := startOf_mem (by omega)
  obtain ⟨place, h0, hlt, hnext, -⟩ := hcyc.exists_position hstart
  have hstep : ∀ I J, Succ n A σ I J → J ≠ startOf n seen.fdSize → place J + 1 = place I + 1 + 1 := by
    intro I J hIJ hne
    rw [hnext I J hIJ hne]
  obtain ⟨hplaced, hto⟩ := @placed_of_cycle _ _ n A dom σ hcyc hfree _ (fun I => place I + 1) hstart (by rw [h0]) hstep
  obtain ⟨pd, hok, hkept⟩ := @exists_positions _ _ _ A dom _ hstart
  have hh : ∀ I J, decide (σ (A I) = J) = true ↔ σ (A I) = J := fun I J => decide_eq_true_iff
  refine ⟨fun I J => decide (σ (A I) = J), fun I => place I + 1, hfree, ?_, ?_, ?_, ?_, hplaced.mem,
    ⟨pd, hok, hkept _ hplaced⟩, ?_, ?_, ?_⟩
  · intro I hI J _ hno
    rw [decide_eq_false_iff_not]
    rintro rfl
    exact hno (hfree I hI)
  · intro I hI J hJ _ _ _
    refine ⟨hh I J, fun h2 => ?_⟩
    by_contra hno
    push Not at hno
    rw [Ne, Bool.not_eq_false, decide_eq_true_eq, Ne, Bool.not_eq_false, decide_eq_true_eq] at hno
    have := hcyc.card_le_two (u := I) (v := J) ⟨hI, hno.1⟩ ⟨hJ, hno.2⟩
    rw [Nat.card_Icc] at this
    omega
  · intro J hJ
    obtain ⟨I, hI, huniq⟩ := hcyc.1.into J hJ
    refine count_eq_one.2 ⟨I, ⟨hI.1, (hh I J).2 hI.2⟩, ?_⟩
    rintro K ⟨hK, hKJ⟩
    exact huniq K ⟨hK, (hh K J).1 hKJ⟩
  · rw [h0]
  · intro I _ hne ht
    rw [hnext _ I ⟨hstart, (hh _ _).1 ht⟩ hne, h0]
  · intro I hI _ ht
    exact hto I ⟨hI, (hh _ _).1 ht⟩
  · intro I hI _ J _ hne _ _ ht
    rw [hnext I J ⟨hI, (hh _ _).1 ht⟩ hne]

end

/-- For two nodes or more, `circuit_aux` has a solution just when the assignment is one cycle through all nodes, and the
preprocessing takes no place of such a cycle away. -/
theorem circuit_iff (hn : 2 ≤ n) (hsound : seen.Sound n A dom) (hσ : ∀ I ∈ Icc 1 n, σ (A I) ∈ dom (A I)) :
    ((∃ h p, circuitAux n A dom seen σ h p) ↔ OneCycle (Succ n A σ) (Icc 1 n)) ∧
    (OneCycle (Succ n A σ) (Icc 1 n) →
      ∃ pd, circuitPreprocess n (startOf n seen.fdSize) (neibs n A dom) (tNeibs n A dom)
          (positions n (startOf n seen.fdSize)) = some pd ∧
        ∀ pos : ℕ → ℕ, pos (startOf n seen.fdSize) = 1 →
          (∀ I J, Succ n A σ I J → J ≠ startOf n seen.fdSize → pos J = pos I + 1) →
          ∀ I ∈ Icc 1 n, pos I ∈ pd I) := by
  have hstart : startOf n seen.fdSize ∈ Icc 1 n := startOf_mem (by omega)
  refine ⟨?_, ?_⟩
  · unfold circuitAux
    simp only [if_neg (by omega : ¬ n = 1)]
    constructor
    · intro hp
      obtain ⟨h, p, hx⟩ := hp
      exact circuitAux_sound hn hx hsound
    · exact exists_circuitAux hn hσ
  · intro hcyc
    obtain ⟨h, p, hx⟩ := @exists_circuitAux _ _ _ _ _ seen _ hn hσ hcyc
    obtain ⟨pd, hok, hkept⟩ := @exists_positions _ _ _ A dom _ hstart
    refine ⟨pd, hok, ?_⟩
    intro pos h1 hstep
    exact hkept pos (placed_of_cycle hcyc (free_of_cycle hn hσ hcyc) hstart h1 hstep).1

end

def nothingKnown : CircuitSeen where
  channel := fun _ _ => false
  fdSize := fun _ => 1
  step := fun _ _ => false

theorem circuit_iff_two : ∃ h p, circuitAux 2 id (fun _ => {1, 2}) nothingKnown (fun I => 3 - I) h p := by
  have hsound : nothingKnown.Sound 2 id (fun _ => {1, 2}) := fun _ _ _ _ _ _ _ _ =>
    ⟨fun h => absurd h Bool.false_ne_true, fun h => absurd h Bool.false_ne_true⟩
  have hmem : ∀ I ∈ Icc 1 2, 3 - I ∈ Icc 1 2 := by decide
  refine (circuit_iff (le_refl 2) hsound (by decide)).1.2 ⟨linked_succ hmem ?_, ?_⟩
  · intro I hI J hJ heq
    have hI' := mem_Icc.1 (mem_coe.1 hI)
    have hJ' := mem_Icc.1 (mem_coe.1 hJ)
    simp only [id_eq] at heq
    omega
  · intro I hI J hJ
    by_cases hIJ : I = J
    · rw [hIJ]
    · refine Relation.ReflTransGen.single ⟨hI, ?_⟩
      rw [mem_Icc] at hI hJ
      show 3 - I = J
      omega

end Picat.Graph
