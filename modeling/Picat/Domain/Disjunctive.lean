import Picat.Domain.HallSet
import Picat.Lib.OneMachine

/-!
# Disjunctive tasks

`b_DISJUNCTIVE_TASKS_AC` and `b_DISJUNCTIVE_TASKS_EF` are posted for each task of a machine as the seed, with the other
tasks in their frame. The first excludes the starts at which a task overlaps the seed for certain. The second goes
through the other tasks in six orders, which it lays out in arrays of twenty, and gathers a growing set of tasks: a
task that cannot run inside of the set is moved before or behind it.

* `disjunctiveTasks_run` : runs of calls keep every schedule, and no index leaves the arrays.
-/

namespace Picat

open OneMachine Function List

/-! ## Tasks and arrays -/

structure Task where
  start : FdTerm
  duration : ℤ
  deriving DecidableEq, Repr

/-- How a call stops short of a normal return: with a stop of a domain routine, or with an index out of `0..19`. -/
inductive TasksStop where
  | domain (e : Stop)
  | scratch
  deriving DecidableEq, Repr

def onDomain {α : Type} : Except Stop α → Except TasksStop α
  | .ok a => .ok a
  | .error e => .error (.domain e)

/-- The arrays `starts` and `durations`, or `t_starts` and `t_durations`, which are always indexed together. Their first
contents are whatever the stack holds. -/
abbrev TaskArray : Type := ℕ → Task

def readTask (a : TaskArray) (i : ℕ) : Except TasksStop Task := if i < 20 then .ok (a i) else .error .scratch

def storeTask (a : TaskArray) (i : ℕ) (t : Task) : Except TasksStop TaskArray :=
  if i < 20 then .ok (update a i t) else .error .scratch

/-- The bounds of a start: `DV_first` and `DV_last`, or the integer twice. -/
def startBounds (s : Store) (x : FdTerm) : ℤ × ℤ :=
  match deref s x with
  | .dvar r => ((s r).first, (s r).last)
  | .int v => (v, v)

def tasksArcConsistent (est0 lst0 duration0 : ℤ) (s : Store) (t : Task) : Except Stop Store :=
  if lst0 - est0 < duration0 + t.duration - 1 then
    match deref s t.start with
    | .int start => if start > lst0 - t.duration ∧ start < est0 + duration0 then .error .fail else .ok s
    | .dvar r =>
      updateM s r fun d => domainExcludeIntervalNoint d (lst0 - t.duration + 1) (est0 + duration0 - 1)
  else .ok s

/-- The loop of `b_DISJUNCTIVE_TASKS_AC` over the other tasks. -/
def disjunctiveArcLoop (est0 lst0 duration0 : ℤ) : List Task → Store → Except Stop Store
  | [], s => .ok s
  | t :: ts, s => do
      let s ← tasksArcConsistent est0 lst0 duration0 s t
      disjunctiveArcLoop est0 lst0 duration0 ts s

/-- `b_DISJUNCTIVE_TASKS_AC`; the seed is the last task of the frame, and the others are met from there on backwards. -/
def bDisjunctiveTasksAC (s : Store) (others : List Task) (seed : Task) : Except Stop Store :=
  let (est0, lst0) := startBounds s seed.start
  disjunctiveArcLoop est0 lst0 seed.duration others.reverse s

/-! ## Edge finding -/

/-- An earliest start, a latest completion and a duration, of one task or of a set of tasks. -/
structure Window where
  est : ℤ
  lct : ℤ
  duration : ℤ
  deriving DecidableEq, Repr

/-- `EDGE_FINDER01`, for the seed, the task before this one, and this one. `start` has been dereferenced. -/
def edgeFinder01 (w0 w1 : Window) (s : Store) (start : FdTerm) (duration : ℤ) : Except Stop Store :=
  let accDuration1 := w0.duration + w1.duration
  let accDuration2 := accDuration1 + duration
  let accEst1 := if w0.est < w1.est then w0.est else w1.est
  let accLct1 := if w0.lct > w1.lct then w0.lct else w1.lct
  match start with
  | .int est =>
    let lct := est + duration
    let accEst1 := if est < accEst1 then est else accEst1
    let accLct1 := if lct > accLct1 then lct else accLct1
    if accLct1 - accEst1 < accDuration2 then .error .fail else .ok s
  | .dvar r =>
    let est := (s r).first
    let lct := (s r).last + duration
    let accEst2 := if est < accEst1 then est else accEst1
    let accLct2 := if lct > accLct1 then lct else accLct1
    if accEst1 + accDuration2 > accLct2 then
      let newLst := accLct1 - accDuration1
      if newLst < (s r).last then updateM s r fun d => domainRegionNoint d est newLst else .ok s
    else if accEst2 + accDuration2 > accLct1 then
      let newEst := accEst1 + accDuration1
      if newEst > est then updateM s r fun d => domainRegionNoint d newEst d.last else .ok s
    else .ok s

/-- The part of `EDGE_FINDER` that narrows a variable, with the window of the set and the task together. -/
def edgeNarrow (acc : Window) (s : Store) (r : ℕ) (duration : ℤ) : Except Stop (Store × Window) :=
  let est := (s r).first
  let lct := (s r).last + duration
  let accEst1 := if est < acc.est then est else acc.est
  let accLct1 := if lct > acc.lct then lct else acc.lct
  let accDuration1 := acc.duration + duration
  if acc.est + accDuration1 > accLct1 then
    let newLst := acc.lct - accDuration1
    if newLst < (s r).last then do
      let s ← updateM s r fun d => domainRegionNoint d est newLst
      return (s, ⟨accEst1, acc.lct, accDuration1⟩)
    else .ok (s, ⟨accEst1, accLct1, accDuration1⟩)
  else if accEst1 + accDuration1 > acc.lct then
    let newEst := acc.est + acc.duration
    if newEst > est then do
      let s ← updateM s r fun d => domainRegionNoint d newEst d.last
      return (s, ⟨acc.est, accLct1, accDuration1⟩)
    else .ok (s, ⟨accEst1, accLct1, accDuration1⟩)
  else .ok (s, ⟨accEst1, accLct1, accDuration1⟩)

/-- `EDGE_FINDER`, with the new window of the set and that of the task, `est` and `lct`. -/
def edgeFinder (acc : Window) (s : Store) (start : FdTerm) (duration : ℤ) : Except Stop (Store × Window × Window) :=
  match start with
  | .int est =>
    let lct := est + duration
    let acc : Window := ⟨if est < acc.est then est else acc.est, if lct > acc.lct then lct else acc.lct,
      acc.duration + duration⟩
    if acc.lct - acc.est < acc.duration then .error .fail else .ok (s, acc, ⟨est, lct, duration⟩)
  | .dvar r => do
      let est := (s r).first
      let lct := (s r).last + duration
      let (s, acc) ← edgeNarrow acc s r duration
      if acc.lct - acc.est < acc.duration then .error .fail else return (s, acc, ⟨est, lct, duration⟩)

/-- The loop of `FORWARD_EDGE_FINDER`, with the number of rounds left. -/
def forwardLoop (w0 : Window) (starts : TaskArray) : ℕ → ℕ → Store → Window → Window → Except TasksStop Store
  | 0, _, s, _, _ => .ok s
  | k + 1, i, s, acc, w1 => do
      let t ← readTask starts i
      let start := deref s t.start
      let s ← onDomain (edgeFinder01 w0 w1 s start t.duration)
      let (s, acc, w) ← onDomain (edgeFinder acc s start t.duration)
      forwardLoop w0 starts k (i + 1) s acc w

def forwardEdgeFinder (w0 : Window) (m : ℕ) (starts : TaskArray) (s : Store) : Except TasksStop Store := do
  let t ← readTask starts 0
  let (est1, lst1) := startBounds s t.start
  let w1 : Window := ⟨est1, lst1 + t.duration, t.duration⟩
  let acc : Window := ⟨if w1.est < w0.est then w1.est else w0.est, if w1.lct > w0.lct then w1.lct else w0.lct,
    w0.duration + w1.duration⟩
  forwardLoop w0 starts (m - 1) 1 s acc w1

/-! ## The orders -/

/-- `for (i = m-1; i >= 0; i--)` -/
def downFrom (m : ℕ) : List ℕ := (List.range m).reverse

/-- `for (i = from; i < m; i++)` -/
def upFrom (from' m : ℕ) : List ℕ := List.range' from' (m - from')

def inOut1 (m : ℕ) : List ℕ := downFrom (m / 2 + 1) ++ upFrom (m / 2 + 1) m

def inOut2 (m : ℕ) : List ℕ := upFrom (m / 2 + 1) m ++ downFrom (m / 2 + 1)

/-- The loop of merge 1 and the task that is stored behind it. Without a task `j` is -1; the loop is not entered then. -/
def merge1Loop (i : ℕ) : ℕ → List ℕ
  | 0 => [i]
  | j + 1 => if i < j + 1 then i :: (j + 1) :: merge1Loop (i + 1) j else [i]

def merge1 (m : ℕ) : List ℕ := merge1Loop 0 (m - 1)

/-- The three loops of merge 2, for `i + 1` and `j`. -/
def merge2Loop (m : ℕ) : ℕ → ℕ → List ℕ
  | 0, j => upFrom j m
  | i + 1, j => if j < m then i :: j :: merge2Loop m i (j + 1) else downFrom (i + 1)

def merge2 (m : ℕ) : List ℕ := merge2Loop m (m / 2 + 1) (m / 2 + 1)

def taskOrders (m : ℕ) : List (List ℕ) :=
  [upFrom 0 m, downFrom m, inOut1 m, inOut2 m, merge1 m, merge2 m]

/-- The tasks of `order` are stored from the index `h` on. -/
def copyTasks (tStarts : TaskArray) : List ℕ → ℕ → TaskArray → Except TasksStop TaskArray
  | [], _, starts => .ok starts
  | i :: order, h, starts => do
      let t ← readTask tStarts i
      let starts ← storeTask starts h t
      copyTasks tStarts order (h + 1) starts

/-- The loop that fills `t_starts` and `t_durations` from the frame, from the last of the other tasks on. -/
def loadTasks : List Task → ℕ → TaskArray → Except TasksStop TaskArray
  | [], _, tStarts => .ok tStarts
  | t :: ts, h, tStarts => do
      let tStarts ← storeTask tStarts h t
      loadTasks ts (h + 1) tStarts

def runOrders (w0 : Window) (m : ℕ) (tStarts : TaskArray) : List (List ℕ) → TaskArray → Store → Except TasksStop Store
  | [], _, s => .ok s
  | order :: orders, starts, s => do
      let starts ← copyTasks tStarts order 0 starts
      let s ← forwardEdgeFinder w0 m starts s
      runOrders w0 m tStarts orders starts s

/-- `b_DISJUNCTIVE_TASKS_EF`, with what the arrays hold at first. -/
def bDisjunctiveTasksEF (starts tStarts : TaskArray) (s : Store) (others : List Task) (seed : Task) :
    Except TasksStop Store := do
  let (est0, lst0) := startBounds s seed.start
  let w0 : Window := ⟨est0, lst0 + seed.duration, seed.duration⟩
  let tStarts ← loadTasks others.reverse 0 tStarts
  runOrders w0 others.length tStarts (taskOrders others.length) starts s

/-! ## The orders and the arrays -/

section
variable {m h i j k : ℕ} {order : List ℕ} {ts : List Task} {starts tStarts : TaskArray}

/-- The first `m` entries of an order are the indices below `m`; one more may be stored behind them. -/
structure IsOrder (m : ℕ) (order : List ℕ) : Prop where
  perm : (order.take m).Perm (List.range m)
  length_le : order.length ≤ m + 1
  le : ∀ i ∈ order, i ≤ m

theorem isOrder_of_perm (hp : order.Perm (List.range m)) : IsOrder m order where
  perm := by
    have hlen := hp.length_eq
    rw [length_range] at hlen
    rwa [← hlen, take_length, hlen]
  length_le := by
    have hlen := hp.length_eq
    rw [length_range] at hlen
    omega
  le := fun i hi => (mem_range.1 (hp.mem_iff.1 hi)).le

theorem upFrom_cons (hlt : j < m) : upFrom j m = j :: upFrom (j + 1) m := by
  rw [upFrom, upFrom, show m - j = m - (j + 1) + 1 by omega, List.range'_succ]

theorem downFrom_perm (m : ℕ) : (downFrom m).Perm (List.range m) := reverse_perm _

theorem isOrder_of_halves (hp : order.Perm (List.range (m / 2 + 1) ++ upFrom (m / 2 + 1) m)) : IsOrder m order := by
  cases m with
  | zero =>
    have hlen := hp.length_eq
    refine ⟨by simp, by simpa [upFrom] using hlen.le, fun i hi => ?_⟩
    have hmem := hp.mem_iff.1 hi
    simpa [upFrom] using hmem
  | succ m =>
    apply isOrder_of_perm
    have hall : List.range ((m + 1) / 2 + 1) ++ upFrom ((m + 1) / 2 + 1) (m + 1) = List.range (m + 1) := by
      rw [upFrom, range_eq_range', range_eq_range']
      have happ : List.range' 0 ((m + 1) / 2 + 1) ++ List.range' (0 + ((m + 1) / 2 + 1)) (m + 1 - ((m + 1) / 2 + 1)) =
          List.range' 0 ((m + 1) / 2 + 1 + (m + 1 - ((m + 1) / 2 + 1))) := List.range'_append_1
      rw [Nat.zero_add] at happ
      rw [happ]
      congr 1
      omega
    rwa [hall] at hp

theorem merge1Loop_spec (j : ℕ) : ∀ i, i ≤ j + 1 →
    ((merge1Loop i j).take (j + 1 - i)).Perm (List.range' i (j + 1 - i)) ∧ (merge1Loop i j).length ≤ j + 2 - i ∧
      ∀ x ∈ merge1Loop i j, x ≤ j ∨ x = i := by
  induction j with
  | zero =>
    intro i hi
    obtain rfl | rfl : i = 0 ∨ i = 1 := by omega
    · simp [merge1Loop]
    · simp [merge1Loop]
  | succ j ih =>
    intro i hi
    unfold merge1Loop
    by_cases hlt : i < j + 1
    · rw [if_pos hlt]
      obtain ⟨hp, hlen, hle⟩ := ih (i + 1) (by omega)
      have hcount : j + 1 + 1 - i = j + 1 - (i + 1) + 1 + 1 := by omega
      refine ⟨?_, by simp only [length_cons]; omega, fun x hx => ?_⟩
      · rw [hcount, take_succ_cons, take_succ_cons, List.range'_succ, List.range'_1_concat]
        apply List.Perm.cons
        rw [show i + 1 + (j + 1 - (i + 1)) = j + 1 by omega]
        exact (hp.cons (j + 1)).trans (perm_append_singleton _ _).symm
      · rcases mem_cons.1 hx with rfl | hx
        · exact .inr rfl
        · rcases mem_cons.1 hx with rfl | hx
          · exact .inl (le_refl _)
          · rcases hle x hx with hxj | rfl
            · exact .inl (by omega)
            · exact .inl (by omega)
    · rw [if_neg hlt]
      obtain rfl | rfl : i = j + 1 ∨ i = j + 2 := by omega
      · simp
      · simp

theorem merge1_isOrder (m : ℕ) : IsOrder m (merge1 m) := by
  cases m with
  | zero => exact ⟨by simp, by simp [merge1, merge1Loop], by simp [merge1, merge1Loop]⟩
  | succ m =>
    obtain ⟨hp, hlen, hle⟩ := merge1Loop_spec m 0 (by omega)
    rw [Nat.sub_zero, ← range_eq_range'] at hp
    exact ⟨hp, hlen, fun i hi => (hle i hi).elim (fun h => by omega) (fun h => by omega)⟩

theorem merge2Loop_perm (m : ℕ) : ∀ i j, (merge2Loop m i j).Perm (List.range i ++ upFrom j m) := by
  intro i
  induction i with
  | zero => exact fun j => List.Perm.refl _
  | succ i ih =>
    intro j
    unfold merge2Loop
    by_cases hlt : j < m
    · rw [if_pos hlt, upFrom_cons hlt, range_succ, append_assoc, singleton_append]
      calc (i :: j :: merge2Loop m i (j + 1)).Perm (i :: j :: (List.range i ++ upFrom (j + 1) m)) :=
            ((ih (j + 1)).cons j).cons i
        _ |>.Perm (List.range i ++ i :: j :: upFrom (j + 1) m) :=
            (perm_middle.trans (perm_middle.cons i)).symm
    · rw [if_neg hlt, upFrom, Nat.sub_eq_zero_of_le (by omega), List.range'_zero, append_nil]
      exact downFrom_perm (i + 1)

theorem taskOrders_isOrder (m : ℕ) : ∀ order ∈ taskOrders m, IsOrder m order := by
  intro order horder
  simp only [taskOrders, mem_cons, not_mem_nil, or_false] at horder
  rcases horder with rfl | rfl | rfl | rfl | rfl | rfl
  · apply isOrder_of_perm
    rw [upFrom, Nat.sub_zero, range_eq_range']
  · exact isOrder_of_perm (downFrom_perm m)
  · exact isOrder_of_halves ((downFrom_perm _).append_right _)
  · exact isOrder_of_halves (perm_append_comm.trans ((downFrom_perm _).append_right _))
  · exact merge1_isOrder m
  · exact isOrder_of_halves (merge2Loop_perm m _ _)

theorem copyTasks_spec (tStarts : TaskArray) (order : List ℕ) (hlt : ∀ i ∈ order, i < 20) :
    ∀ (h : ℕ) (starts : TaskArray), h + order.length ≤ 20 →
      ∃ starts', copyTasks tStarts order h starts = .ok starts' ∧ (∀ k, k < h → starts' k = starts k) ∧
        ∀ k i, order[k]? = some i → starts' (h + k) = tStarts i := by
  induction order with
  | nil => exact fun h starts _ => ⟨starts, rfl, fun _ _ => rfl, fun k i hk => by simp at hk⟩
  | cons i order ih =>
    intro h starts hlen
    rw [length_cons] at hlen
    have hi := hlt i mem_cons_self
    obtain ⟨starts', hrun, hkeep, hcopy⟩ := ih (fun j hj => hlt j (mem_cons_of_mem _ hj)) (h + 1)
      (update starts h (tStarts i)) (by omega)
    refine ⟨starts', ?_, fun k hk => ?_, fun k j hk => ?_⟩
    · simp only [copyTasks, readTask, storeTask, if_pos hi, if_pos (show h < 20 by omega), bind, Except.bind, hrun]
    · rw [hkeep k (by omega), update_of_ne (by omega)]
    · cases k with
      | zero =>
        obtain rfl : i = j := Option.some.inj hk
        rw [Nat.add_zero, hkeep h (by omega), update_self]
      | succ k =>
        rw [show h + (k + 1) = h + 1 + k by omega]
        exact hcopy k j hk

theorem loadTasks_spec (ts : List Task) : ∀ (h : ℕ) (tStarts : TaskArray), h + ts.length ≤ 20 →
    ∃ tStarts', loadTasks ts h tStarts = .ok tStarts' ∧ (∀ k, k < h → tStarts' k = tStarts k) ∧
      ∀ k t, ts[k]? = some t → tStarts' (h + k) = t := by
  induction ts with
  | nil => exact fun h tStarts _ => ⟨tStarts, rfl, fun _ _ => rfl, fun k t hk => by simp at hk⟩
  | cons t ts ih =>
    intro h tStarts hlen
    rw [length_cons] at hlen
    obtain ⟨tStarts', hrun, hkeep, hload⟩ := ih (h + 1) (update tStarts h t) (by omega)
    refine ⟨tStarts', ?_, fun k hk => ?_, fun k u hk => ?_⟩
    · simp only [loadTasks, storeTask, if_pos (show h < 20 by omega), bind, Except.bind, hrun]
    · rw [hkeep k (by omega), update_of_ne (by omega)]
    · cases k with
      | zero =>
        obtain rfl : t = u := Option.some.inj hk
        rw [Nat.add_zero, hkeep h (by omega), update_self]
      | succ k =>
        rw [show h + (k + 1) = h + 1 + k by omega]
        exact hload k u hk

/-- The first `m` tasks of an array. -/
def laidOut (starts : TaskArray) (m : ℕ) : List Task := (List.range m).map starts

theorem laidOut_succ : laidOut starts (m + 1) = laidOut starts m ++ [starts m] := by
  simp only [laidOut, range_succ, List.map_append, map_cons, map_nil]

theorem loadTasks_laidOut (ts : List Task) (tStarts : TaskArray) (hlen : ts.length ≤ 20) :
    ∃ tStarts', loadTasks ts 0 tStarts = .ok tStarts' ∧ laidOut tStarts' ts.length = ts := by
  obtain ⟨tStarts', hrun, -, hload⟩ := loadTasks_spec ts 0 tStarts (by omega)
  refine ⟨tStarts', hrun, ext_getElem (by simp [laidOut]) fun k hk hk' => ?_⟩
  have hget := hload k ts[k] (List.getElem?_eq_getElem hk')
  simpa [laidOut] using hget

theorem copyTasks_laidOut (tStarts starts : TaskArray) (horder : IsOrder m order) (hm : m < 20) :
    ∃ starts', copyTasks tStarts order 0 starts = .ok starts' ∧ (laidOut starts' m).Perm (laidOut tStarts m) := by
  have hlen := horder.length_le
  obtain ⟨starts', hrun, -, hcopy⟩ := copyTasks_spec tStarts order
    (fun i hi => by have hle := horder.le i hi; omega) 0 starts (by omega)
  refine ⟨starts', hrun, ?_⟩
  have hlong := horder.perm.length_eq
  rw [length_take, length_range] at hlong
  have heq : laidOut starts' m = (order.take m).map tStarts := by
    apply ext_getElem (by simp [laidOut, hlong])
    intro k hk hk'
    have hkm : k < m := by simpa [laidOut] using hk
    have hget := hcopy k order[k] (List.getElem?_eq_getElem (by omega))
    simpa [laidOut] using hget
  rw [heq]
  exact horder.perm.map tStarts

end

/-! ## What is known of the tasks -/

/-- `sol` is a schedule of the tasks within the domains: of two tasks one is over before the other starts. -/
structure Schedule (s : Store) (ts : List Task) (sol : ℕ → ℤ) : Prop where
  mem : ∀ q, .dvar q ∈ ts.map Task.start → sol q ∈ (s q).dom
  apart : ts.Pairwise (Apart (fun t => t.start.val sol) Task.duration)

/-- The tasks lie in the window under `sol`, and take its duration. -/
structure InWindow (sol : ℕ → ℤ) (w : Window) (ts : List Task) : Prop where
  fits : Fits (fun t => t.start.val sol) Task.duration ts w.est w.lct
  duration : w.duration = (ts.map Task.duration).sum

/-- The tasks do not overlap, and none has a negative duration. -/
structure Disjunctive (sol : ℕ → ℤ) (ts : List Task) : Prop where
  apart : ts.Pairwise (Apart (fun t => t.start.val sol) Task.duration)
  nonneg : ∀ t ∈ ts, 0 ≤ t.duration

/-- `x` is what `DEREF_NONVAR` made of the start of `t`: an integer, which it keeps, or a variable. -/
def Stands (live : ℕ → Prop) (sol : ℕ → ℤ) (x : FdTerm) (t : Task) : Prop :=
  (∃ v, x = .int v ∧ t.start.val sol = v) ∨ ∃ r, x = .dvar r ∧ t.start.val sol = sol r ∧ live r

section
variable {live : ℕ → Prop} {sol : ℕ → ℤ} {s₀ s : Store} {ts Q : List Task} {t T T0 T1 : Task} {x : FdTerm}
  {acc w w0 w1 : Window} {r : ℕ} {m : ℕ}

theorem Disjunctive.perm {ts' : List Task} (h : Disjunctive sol ts) (hp : ts.Perm ts') : Disjunctive sol ts' where
  apart := (hp.pairwise_iff fun hab => hab.symm).1 h.apart
  nonneg := fun t ht => h.nonneg t (hp.mem_iff.2 ht)

theorem Disjunctive.sublist (h : Disjunctive sol ts) (hs : Q.Sublist ts) : Disjunctive sol Q where
  apart := h.apart.sublist hs
  nonneg := fun t ht => h.nonneg t (hs.subset ht)

theorem InWindow.perm (h : InWindow sol w Q) (hp : Q.Perm ts) : InWindow sol w ts where
  fits := h.fits.perm hp
  duration := h.duration.trans (hp.map _).sum_eq

theorem InWindow.singleton {est lct : ℤ} (hest : est ≤ T.start.val sol) (hlct : T.start.val sol + T.duration ≤ lct) :
    InWindow sol ⟨est, lct, T.duration⟩ [T] where
  fits := Fits.singleton hest hlct
  duration := by simp

theorem InWindow.cons {est lct : ℤ} (h : InWindow sol w Q) (hest : est ≤ w.est) (hlct : w.lct ≤ lct)
    (hT : est ≤ T.start.val sol) (hT' : T.start.val sol + T.duration ≤ lct) :
    InWindow sol ⟨est, lct, w.duration + T.duration⟩ (T :: Q) where
  fits := (h.fits.mono hest hlct).cons hT hT'
  duration := by
    simp only [map_cons, sum_cons, h.duration]
    ring

theorem InWindow.not_full (h : InWindow sol w Q) (hne : Q ≠ []) (hd : Disjunctive sol Q) :
    ¬ w.lct - w.est < w.duration := by
  have htotal := total_le hne hd.apart hd.nonneg h.fits
  rw [← h.duration] at htotal
  omega

theorem InWindow.first {lct : ℤ} (h : InWindow sol w Q) (hne : Q ≠ []) (hd : Disjunctive sol (T :: Q))
    (hlct : T.start.val sol + T.duration ≤ lct) (hle : w.lct ≤ lct) (hfull : w.est + (w.duration + T.duration) > lct) :
    T.start.val sol ≤ w.lct - (w.duration + T.duration) ∧ T.start.val sol + T.duration ≤ w.lct := by
  rw [h.duration] at hfull ⊢
  have hfirst := first_of_full hd.apart hd.nonneg h.fits hlct hle hfull
  refine ⟨start_le_of_first hne hd.apart hd.nonneg h.fits hfirst, ?_⟩
  obtain ⟨t, ht⟩ := exists_mem_of_ne_nil Q hne
  have hbefore := hfirst t ht
  have hend := h.fits.lct t ht
  have hpos := hd.nonneg t (mem_cons_of_mem _ ht)
  omega

theorem InWindow.last {est : ℤ} (h : InWindow sol w Q) (hne : Q ≠ []) (hd : Disjunctive sol (T :: Q))
    (hest : est ≤ T.start.val sol) (hle : est ≤ w.est) (hfull : est + (w.duration + T.duration) > w.lct) :
    w.est + w.duration ≤ T.start.val sol ∧ w.est ≤ T.start.val sol := by
  rw [h.duration] at hfull ⊢
  have hlast := last_of_full hd.apart hd.nonneg h.fits hest hle hfull
  refine ⟨le_start_of_last hne hd.apart hd.nonneg h.fits hlast, ?_⟩
  obtain ⟨t, ht⟩ := exists_mem_of_ne_nil Q hne
  have hafter := hlast t ht
  have hstart := h.fits.est t ht
  have hpos := hd.nonneg t (mem_cons_of_mem _ ht)
  omega

theorem InWindow.join {est lct : ℤ} (h0 : InWindow sol w0 [T0]) (h1 : InWindow sol w1 [T1])
    (hest : est ≤ w0.est ∧ est ≤ w1.est) (hlct : w0.lct ≤ lct ∧ w1.lct ≤ lct) :
    InWindow sol ⟨est, lct, w0.duration + w1.duration⟩ [T0, T1] where
  fits := by
    have hfit := (h0.fits.mono hest.1 hlct.1).est T0 (by simp)
    have hfit' := (h0.fits.mono hest.1 hlct.1).lct T0 (by simp)
    exact (h1.fits.mono hest.2 hlct.2).cons hfit hfit'
  duration := by
    have hd0 := h0.duration
    have hd1 := h1.duration
    simp only [map_cons, map_nil, sum_cons, sum_nil, add_zero] at hd0 hd1 ⊢
    rw [hd0, hd1]

/-! ## The macros keep a schedule -/

theorem min_le_both {a b : ℤ} : (if a < b then a else b) ≤ a ∧ (if a < b then a else b) ≤ b := by
  split <;> omega

theorem le_max_both {a b : ℤ} : a ≤ (if a > b then a else b) ∧ b ≤ (if a > b then a else b) := by
  split <;> omega

section
variable (hk : Kept live sol s₀ s)
include hk

theorem edgeFinder01_kept (hx : Stands live sol x T) (h0 : InWindow sol w0 [T0])
    (h1 : InWindow sol w1 [T1]) (hd : Disjunctive sol [T, T0, T1]) :
    ∃ s', edgeFinder01 w0 w1 s x T.duration = .ok s' ∧ Kept live sol s₀ s' := by
  have hT := hd.nonneg T mem_cons_self
  unfold edgeFinder01
  extract_lets d1 d2 e1 l1 newLst newEst
  have hjoin : InWindow sol ⟨e1, l1, d1⟩ [T0, T1] := h0.join h1 min_le_both le_max_both
  rcases hx with ⟨v, rfl, hval⟩ | ⟨r, rfl, hval, hlive⟩
  · -- an integer: the three tasks fit into their window
    dsimp -zeta only
    extract_lets lct e2 l2
    have hcons : InWindow sol ⟨e2, l2, d1 + T.duration⟩ (T :: [T0, T1]) :=
      hjoin.cons min_le_both.2 le_max_both.2 (by rw [hval]; exact min_le_both.1) (by rw [hval]; exact le_max_both.1)
    exact ⟨s, if_neg (hcons.not_full (cons_ne_nil _ _) hd), hk⟩
  · have hkeep := hk.keeps r hlive
    have hfirst := hkeep.first_le
    have hlast := hkeep.le_last
    dsimp -zeta only
    extract_lets est lct e2 l2
    have hend : T.start.val sol + T.duration ≤ l2 := le_trans (by rw [hval]; simp only [lct]; omega) le_max_both.1
    have hstart : e2 ≤ T.start.val sol := le_trans min_le_both.1 (by rw [hval]; exact hfirst)
    by_cases hbefore : e1 + d2 > l2
    · rw [if_pos hbefore]
      split
      · have hle := (hjoin.first (cons_ne_nil _ _) hd hend le_max_both.2 hbefore).1
        rw [hval] at hle
        simp only at hle
        exact hk.updateM hlive (hkeep.regionNoint hfirst (by omega))
      · exact ⟨s, rfl, hk⟩
    · rw [if_neg hbefore]
      by_cases hafter : e2 + d2 > l1
      · rw [if_pos hafter]
        split
        · have hge := (hjoin.last (cons_ne_nil _ _) hd hstart min_le_both.2 hafter).1
          rw [hval] at hge
          exact hk.updateM hlive (hkeep.regionNoint hge hlast)
        · exact ⟨s, rfl, hk⟩
      · rw [if_neg hafter]
        exact ⟨s, rfl, hk⟩

theorem edgeNarrow_kept (hval : T.start.val sol = sol r) (hlive : live r)
    (hacc : InWindow sol acc Q) (hne : Q ≠ []) (hd : Disjunctive sol (T :: Q)) :
    ∃ s' acc', edgeNarrow acc s r T.duration = .ok (s', acc') ∧ Kept live sol s₀ s' ∧ InWindow sol acc' (T :: Q) := by
  have hkeep := hk.keeps r hlive
  have hfirst := hkeep.first_le
  have hlast := hkeep.le_last
  unfold edgeNarrow
  extract_lets est lct e1 l1 d1 newLst newEst
  have hend : T.start.val sol + T.duration ≤ l1 := le_trans (by rw [hval]; simp only [lct]; omega) le_max_both.1
  have hstart : e1 ≤ T.start.val sol := le_trans min_le_both.1 (by rw [hval]; exact hfirst)
  have hboth : InWindow sol ⟨e1, l1, d1⟩ (T :: Q) := hacc.cons min_le_both.2 le_max_both.2 hstart hend
  by_cases hbefore : acc.est + d1 > l1
  · rw [if_pos hbefore]
    obtain ⟨hle, hover⟩ := hacc.first hne hd hend le_max_both.2 hbefore
    rw [hval] at hle
    split
    · obtain ⟨s', hs', hk'⟩ := hk.updateM (g := fun d => domainRegionNoint d est newLst) hlive
        (hkeep.regionNoint hfirst hle)
      refine ⟨s', ⟨e1, acc.lct, d1⟩, ?_, hk', hacc.cons min_le_both.2 (le_refl _) hstart hover⟩
      simp only [hs', bind, Except.bind]
      rfl
    · exact ⟨s, _, rfl, hk, hboth⟩
  · rw [if_neg hbefore]
    by_cases hafter : e1 + d1 > acc.lct
    · rw [if_pos hafter]
      obtain ⟨hge, hin⟩ := hacc.last hne hd hstart min_le_both.2 hafter
      rw [hval] at hge
      split
      · obtain ⟨s', hs', hk'⟩ := hk.updateM (g := fun d => domainRegionNoint d newEst d.last) hlive
          (hkeep.regionNoint hge hlast)
        refine ⟨s', ⟨acc.est, l1, d1⟩, ?_, hk', hacc.cons (le_refl _) le_max_both.2 hin hend⟩
        simp only [hs', bind, Except.bind]
        rfl
      · exact ⟨s, _, rfl, hk, hboth⟩
    · rw [if_neg hafter]
      exact ⟨s, _, rfl, hk, hboth⟩

theorem edgeFinder_kept (hx : Stands live sol x T) (hacc : InWindow sol acc Q) (hne : Q ≠ [])
    (hd : Disjunctive sol (T :: Q)) :
    ∃ s' acc' w, edgeFinder acc s x T.duration = .ok (s', acc', w) ∧ Kept live sol s₀ s' ∧
      InWindow sol acc' (T :: Q) ∧ InWindow sol w [T] := by
  unfold edgeFinder
  rcases hx with ⟨v, rfl, hval⟩ | ⟨r, rfl, hval, hlive⟩
  · dsimp -zeta only
    extract_lets lct acc'
    have hcons : InWindow sol acc' (T :: Q) :=
      hacc.cons min_le_both.2 le_max_both.2 (by rw [hval]; exact min_le_both.1) (by rw [hval]; exact le_max_both.1)
    exact ⟨s, acc', _, if_neg (hcons.not_full (cons_ne_nil _ _) hd), hk, hcons,
      InWindow.singleton hval.ge (by rw [hval])⟩
  · have hkeep := hk.keeps r hlive
    have hfirst := hkeep.first_le
    have hlast := hkeep.le_last
    obtain ⟨s', acc', hrun, hk', hacc'⟩ := edgeNarrow_kept hk hval hlive hacc hne hd
    refine ⟨s', acc', ⟨(s r).first, (s r).last + T.duration, T.duration⟩, ?_, hk', hacc',
      InWindow.singleton (by rw [hval]; exact hfirst) (by rw [hval]; omega)⟩
    simp only [hrun, bind, Except.bind]
    rw [if_neg (hacc'.not_full (cons_ne_nil _ _) hd)]
    rfl

end

end

/-! ## The passes -/

variable {others : List Task}

section
variable {sol : ℕ → ℤ} {s₀ s : Store} {ts : List Task} {t seed : Task} {acc w w0 w1 : Window} {m : ℕ}
  {starts tStarts : TaskArray}

abbrev TaskLive (s₀ : Store) (ts : List Task) : ℕ → Prop := FreeIn s₀ (ts.map Task.start)

/-- What the calls rely on: the tasks of the machine with their domains, and a schedule. -/
structure Scheduled (s₀ : Store) (ts : List Task) (sol : ℕ → ℤ) : Prop where
  inv : ∀ q, .dvar q ∈ ts.map Task.start → (s₀ q).Inv
  nonneg : ∀ t ∈ ts, 0 ≤ t.duration
  schedule : Schedule s₀ ts sol

section
variable (h : Scheduled s₀ ts sol)
include h

theorem Scheduled.disjunctive : Disjunctive sol ts := ⟨h.schedule.apart, h.nonneg⟩

section
variable (hk : Kept (TaskLive s₀ ts) sol s₀ s) (ht : t ∈ ts)
include hk ht

theorem Scheduled.stands : Stands (TaskLive s₀ ts) sol (deref s t.start) t := by
  rcases hk.deref_cases h.inv h.schedule.mem (mem_map_of_mem ht) with ⟨v, hv, hval⟩ | ⟨r, hr, hv, hfree, -⟩
  · exact .inl ⟨v, hv, hval⟩
  · exact .inr ⟨r, hv, by rw [hr]; rfl, hfree⟩

theorem Scheduled.startBounds :
    (startBounds s t.start).1 ≤ t.start.val sol ∧ t.start.val sol ≤ (startBounds s t.start).2 := by
  unfold Picat.startBounds
  rcases h.stands hk ht with ⟨v, hv, hval⟩ | ⟨r, hv, hval, hfree⟩
  · rw [hv, hval]
    exact ⟨le_refl v, le_refl v⟩
  · rw [hv, hval]
    exact ⟨(hk.keeps r hfree).first_le, (hk.keeps r hfree).le_last⟩

theorem Scheduled.inWindow :
    InWindow sol ⟨(Picat.startBounds s t.start).1, (Picat.startBounds s t.start).2 + t.duration, t.duration⟩ [t] := by
  obtain ⟨hfirst, hlast⟩ := h.startBounds hk ht
  exact InWindow.singleton hfirst (by omega)

end

end

theorem laidOut_sublist {i : ℕ} (h : i ≤ m) : (laidOut starts i).Sublist (laidOut starts m) :=
  (range_sublist.2 h).map starts

section
variable (h : Scheduled s₀ ts sol) (hm : m < 20) (hlaid : (seed :: laidOut starts m).Perm ts)
  (h0 : InWindow sol w0 [seed])
include h hm hlaid h0

/-- The loop keeps a schedule: the set is the seed and the tasks before the index, `w1` belongs to the last of them. -/
theorem forwardLoop_kept (k : ℕ) : ∀ (p : ℕ) (s : Store) (acc w1 : Window), p + 1 + k = m →
      Kept (TaskLive s₀ ts) sol s₀ s → InWindow sol acc (seed :: laidOut starts (p + 1)) →
      InWindow sol w1 [starts p] →
      ∃ s', forwardLoop w0 starts k (p + 1) s acc w1 = .ok s' ∧ Kept (TaskLive s₀ ts) sol s₀ s' := by
  have hd := h.disjunctive.perm hlaid.symm
  induction k with
  | zero => exact fun p s acc w1 _ hk _ _ => ⟨s, rfl, hk⟩
  | succ k ih =>
    intro p s acc w1 hp hk hacc h1
    have hmem : starts (p + 1) ∈ ts :=
      hlaid.mem_iff.1 (mem_cons_of_mem _ (mem_map_of_mem (mem_range.2 (by omega))))
    have hnext : (starts (p + 1) :: seed :: laidOut starts (p + 1)).Perm (seed :: laidOut starts (p + 1 + 1)) := by
      rw [laidOut_succ (m := p + 1)]
      exact (List.Perm.swap _ _ _).trans ((perm_append_singleton _ _).symm.cons seed)
    have hdcons : Disjunctive sol (starts (p + 1) :: seed :: laidOut starts (p + 1)) :=
      (hd.sublist ((laidOut_sublist (show p + 1 + 1 ≤ m by omega)).cons_cons seed)).perm hnext.symm
    -- the seed, the task before and this one
    have hdthree : Disjunctive sol [starts (p + 1), seed, starts p] := by
      refine hdcons.sublist (List.Sublist.cons_cons _ (List.Sublist.cons_cons _ ?_))
      rw [laidOut_succ]
      exact sublist_append_right _ _
    have hx := h.stands hk hmem
    obtain ⟨s₁, hs₁, hk₁⟩ := edgeFinder01_kept hk hx h0 h1 hdthree
    obtain ⟨s₂, acc', w, hs₂, hk₂, hacc', hw⟩ := edgeFinder_kept hk₁ hx hacc (cons_ne_nil _ _) hdcons
    obtain ⟨s', hs', hk'⟩ := ih (p + 1) s₂ acc' w (by omega) hk₂ (hacc'.perm hnext) hw
    refine ⟨s', ?_, hk'⟩
    simp only [forwardLoop, readTask, if_pos (show p + 1 < 20 by omega), hs₁, hs₂, onDomain, bind, Except.bind, hs']

theorem forwardEdgeFinder_kept (hk : Kept (TaskLive s₀ ts) sol s₀ s) :
    ∃ s', forwardEdgeFinder w0 m starts s = .ok s' ∧ Kept (TaskLive s₀ ts) sol s₀ s' := by
  simp only [forwardEdgeFinder, readTask, if_pos (show 0 < 20 by omega), bind, Except.bind]
  cases m with
  | zero => exact ⟨s, rfl, hk⟩
  | succ m =>
    have hmem : starts 0 ∈ ts :=
      hlaid.mem_iff.1 (mem_cons_of_mem _ (mem_map_of_mem (mem_range.2 (by omega))))
    have h1 := h.inWindow hk hmem
    exact forwardLoop_kept h hm hlaid h0 m 0 s _ _ (by omega) hk
      (h0.join h1 ⟨min_le_both.2, min_le_both.1⟩ ⟨le_max_both.2, le_max_both.1⟩) h1

end

theorem runOrders_kept (h : Scheduled s₀ ts sol) (hm : m < 20) (hload : (seed :: laidOut tStarts m).Perm ts)
    (h0 : InWindow sol w0 [seed]) (orders : List (List ℕ)) :
    ∀ (starts : TaskArray) (s : Store), (∀ order ∈ orders, IsOrder m order) → Kept (TaskLive s₀ ts) sol s₀ s →
      ∃ s', runOrders w0 m tStarts orders starts s = .ok s' ∧ Kept (TaskLive s₀ ts) sol s₀ s' := by
  induction orders with
  | nil => exact fun starts s _ hk => ⟨s, rfl, hk⟩
  | cons order orders ih =>
    intro starts s horders hk
    obtain ⟨starts₁, hcopy, hperm⟩ := copyTasks_laidOut tStarts starts (horders order mem_cons_self) hm
    obtain ⟨s₁, hs₁, hk₁⟩ := forwardEdgeFinder_kept h hm ((hperm.cons seed).trans hload) h0 hk
    obtain ⟨s', hs', hk'⟩ := ih starts₁ s₁ (fun o ho => horders o (mem_cons_of_mem _ ho)) hk₁
    refine ⟨s', ?_, hk'⟩
    simp only [runOrders, hcopy, hs₁, bind, Except.bind, hs']

theorem bDisjunctiveTasksEF_kept (h : Scheduled s₀ ts sol) (hperm : (seed :: others).Perm ts)
    (hlen : ts.length ≤ 20) (hk : Kept (TaskLive s₀ ts) sol s₀ s) :
    ∃ s', bDisjunctiveTasksEF starts tStarts s others seed = .ok s' ∧ Kept (TaskLive s₀ ts) sol s₀ s' := by
  have hcount := hperm.length_eq
  rw [length_cons] at hcount
  have hseed : seed ∈ ts := hperm.mem_iff.1 mem_cons_self
  obtain ⟨tStarts', hload, hlaid⟩ := loadTasks_laidOut others.reverse tStarts (by rw [length_reverse]; omega)
  rw [length_reverse] at hlaid
  have hall : (seed :: laidOut tStarts' others.length).Perm ts := by
    rw [hlaid]
    exact ((reverse_perm others).cons seed).trans hperm
  obtain ⟨s', hs', hk'⟩ := runOrders_kept h (by omega) hall (h.inWindow hk hseed) (taskOrders others.length) starts s
    (taskOrders_isOrder _) hk
  refine ⟨s', ?_, hk'⟩
  simp only [bDisjunctiveTasksEF, hload, bind, Except.bind]
  exact hs'

theorem tasksArcConsistent_kept {est0 lst0 : ℤ} (h : Scheduled s₀ ts sol) (hk : Kept (TaskLive s₀ ts) sol s₀ s)
    (ht : t ∈ ts) (hseed : est0 ≤ seed.start.val sol ∧ seed.start.val sol ≤ lst0)
    (hap : Apart (fun t => t.start.val sol) Task.duration seed t) :
    ∃ s', tasksArcConsistent est0 lst0 seed.duration s t = .ok s' ∧ Kept (TaskLive s₀ ts) sol s₀ s' := by
  unfold tasksArcConsistent
  split
  · next hmeet =>
      -- whichever comes first, the start is outside of the excluded interval
      have hout : t.start.val sol < lst0 - t.duration + 1 ∨ est0 + seed.duration - 1 < t.start.val sol := by
        rcases hap with hap | hap <;> simp only at hap <;> omega
      rcases h.stands hk ht with ⟨v, hv, hval⟩ | ⟨r, hv, hval, hfree⟩
      · rw [hval] at hout
        refine ⟨s, ?_, hk⟩
        simp only [hv]
        rw [if_neg (by omega)]
      · rw [hval] at hout
        simp only [hv]
        exact hk.updateM hfree ((hk.keeps r hfree).excludeIntervalNoint (by omega) hout)
  · exact ⟨s, rfl, hk⟩

theorem disjunctiveArcLoop_kept {est0 lst0 : ℤ} (h : Scheduled s₀ ts sol)
    (hseed : est0 ≤ seed.start.val sol ∧ seed.start.val sol ≤ lst0) (others : List Task) :
    ∀ s : Store, (∀ t ∈ others, t ∈ ts) → (∀ t ∈ others, Apart (fun t => t.start.val sol) Task.duration seed t) →
      Kept (TaskLive s₀ ts) sol s₀ s →
      ∃ s', disjunctiveArcLoop est0 lst0 seed.duration others s = .ok s' ∧ Kept (TaskLive s₀ ts) sol s₀ s' := by
  induction others with
  | nil => exact fun s _ _ hk => ⟨s, rfl, hk⟩
  | cons t others ih =>
    intro s hsub hap hk
    obtain ⟨s₁, hs₁, hk₁⟩ := tasksArcConsistent_kept h hk (hsub t mem_cons_self) hseed (hap t mem_cons_self)
    obtain ⟨s', hs', hk'⟩ := ih s₁ (fun u hu => hsub u (mem_cons_of_mem _ hu))
      (fun u hu => hap u (mem_cons_of_mem _ hu)) hk₁
    refine ⟨s', ?_, hk'⟩
    simp only [disjunctiveArcLoop, hs₁, bind, Except.bind, hs']

theorem bDisjunctiveTasksAC_kept (h : Scheduled s₀ ts sol) (hperm : (seed :: others).Perm ts)
    (hk : Kept (TaskLive s₀ ts) sol s₀ s) :
    ∃ s', bDisjunctiveTasksAC s others seed = .ok s' ∧ Kept (TaskLive s₀ ts) sol s₀ s' := by
  have hap := (pairwise_cons.1 (h.disjunctive.perm hperm.symm).apart).1
  exact disjunctiveArcLoop_kept h (h.startBounds hk (hperm.mem_iff.1 mem_cons_self)) others.reverse s
    (fun t ht => hperm.mem_iff.1 (mem_cons_of_mem _ (mem_reverse.1 ht)))
    (fun t ht => hap t (mem_reverse.1 ht)) hk

end

/-! ## The arrays are never left -/

section
variable {s : Store} {w0 : Window} {m : ℕ} {starts tStarts : TaskArray} {seed : Task}

theorem onDomain_ne_scratch {α : Type} (x : Except Stop α) : onDomain x ≠ .error .scratch := by
  cases x <;> simp [onDomain]

theorem forwardLoop_ne_scratch (k : ℕ) : ∀ (i : ℕ) (s : Store) (acc w1 : Window), i + k ≤ 20 →
    forwardLoop w0 starts k i s acc w1 ≠ .error .scratch := by
  induction k with
  | zero => exact fun i s acc w1 _ => by simp [forwardLoop]
  | succ k ih =>
    intro i s acc w1 hi
    simp only [forwardLoop, readTask, if_pos (show i < 20 by omega), bind, Except.bind]
    cases h1 : onDomain (edgeFinder01 w0 w1 s (deref s (starts i).start) (starts i).duration) with
    | error e => exact fun h => onDomain_ne_scratch _ (h1.trans h)
    | ok s₁ =>
      dsimp only
      cases h2 : onDomain (edgeFinder acc s₁ (deref s (starts i).start) (starts i).duration) with
      | error e => exact fun h => onDomain_ne_scratch _ (h2.trans (by simpa using h))
      | ok p => exact ih (i + 1) p.1 p.2.1 p.2.2 (by omega)

theorem runOrders_ne_scratch (hm : m < 20) (orders : List (List ℕ)) :
    ∀ (starts : TaskArray) (s : Store), (∀ order ∈ orders, IsOrder m order) →
      runOrders w0 m tStarts orders starts s ≠ .error .scratch := by
  induction orders with
  | nil => exact fun starts s _ => by simp [runOrders]
  | cons order orders ih =>
    intro starts s horders
    obtain ⟨starts₁, hcopy, -⟩ := copyTasks_laidOut tStarts starts (horders order mem_cons_self) hm
    simp only [runOrders, hcopy, bind, Except.bind]
    cases hpass : forwardEdgeFinder w0 m starts₁ s with
    | error e =>
      simp only [forwardEdgeFinder, readTask, if_pos (show 0 < 20 by omega), bind, Except.bind] at hpass
      intro h
      exact forwardLoop_ne_scratch (m - 1) 1 s _ _ (by omega) (hpass.trans (by simpa using h))
    | ok s₁ => exact ih starts₁ s₁ fun o ho => horders o (mem_cons_of_mem _ ho)

theorem bDisjunctiveTasksEF_ne_scratch (hlen : others.length < 20) :
    bDisjunctiveTasksEF starts tStarts s others seed ≠ .error .scratch := by
  obtain ⟨tStarts', hload, -⟩ := loadTasks_laidOut others.reverse tStarts (by rw [length_reverse]; omega)
  simp only [bDisjunctiveTasksEF, hload, bind, Except.bind]
  exact runOrders_ne_scratch hlen _ starts s (taskOrders_isOrder _)

end

/-! ## Runs of calls -/

/-- A call of one of the propagators, with its frame; the second one finds something in its arrays. -/
inductive TaskCall where
  | ac (others : List Task) (seed : Task)
  | ef (starts tStarts : TaskArray) (others : List Task) (seed : Task)

def TaskCall.tasks : TaskCall → List Task
  | ac others seed => seed :: others
  | ef _ _ others seed => seed :: others

/-- The arrays have room for the tasks, of which the frame of the second propagator has twenty at most. -/
def TaskCall.Admitted : TaskCall → Prop
  | ac _ _ => True
  | ef _ _ others seed => (seed :: others).length ≤ 20

def TaskCall.run : TaskCall → Store → Except TasksStop Store
  | ac others seed, s => onDomain (bDisjunctiveTasksAC s others seed)
  | ef starts tStarts others seed, s => bDisjunctiveTasksEF starts tStarts s others seed

def runCalls : List TaskCall → Store → Except TasksStop Store
  | [], s => .ok s
  | c :: cs, s => do
      let s ← c.run s
      runCalls cs s

section
variable {sol : ℕ → ℤ} {s₀ : Store} {ts : List Task}

theorem TaskCall.run_kept (h : Scheduled s₀ ts sol) (c : TaskCall) (hperm : c.tasks.Perm ts) (hadm : c.Admitted)
    {s : Store} (hk : Kept (TaskLive s₀ ts) sol s₀ s) : ∃ s', c.run s = .ok s' ∧ Kept (TaskLive s₀ ts) sol s₀ s' := by
  cases c with
  | ac others seed =>
    obtain ⟨s', hs', hk'⟩ := bDisjunctiveTasksAC_kept h hperm hk
    exact ⟨s', by simp only [TaskCall.run, hs', onDomain], hk'⟩
  | ef starts tStarts others seed =>
    have hlen := hperm.length_eq
    simp only [TaskCall.tasks, TaskCall.Admitted, length_cons] at hlen hadm
    exact bDisjunctiveTasksEF_kept h hperm (by omega) hk

theorem runCalls_kept (h : Scheduled s₀ ts sol) (cs : List TaskCall) :
    ∀ s : Store, (∀ c ∈ cs, c.tasks.Perm ts) → (∀ c ∈ cs, c.Admitted) → Kept (TaskLive s₀ ts) sol s₀ s →
      ∃ s', runCalls cs s = .ok s' ∧ Kept (TaskLive s₀ ts) sol s₀ s' := by
  induction cs with
  | nil => exact fun s _ _ hk => ⟨s, rfl, hk⟩
  | cons c cs ih =>
    intro s hperm hadm hk
    obtain ⟨s₁, hs₁, hk₁⟩ := c.run_kept h (hperm c mem_cons_self) (hadm c mem_cons_self) hk
    obtain ⟨s', hs', hk'⟩ := ih s₁ (fun d hd => hperm d (mem_cons_of_mem _ hd))
      (fun d hd => hadm d (mem_cons_of_mem _ hd)) hk₁
    refine ⟨s', ?_, hk'⟩
    simp only [runCalls, hs₁, bind, Except.bind, hs']

theorem runCalls_ne_scratch (cs : List TaskCall) :
    ∀ s : Store, (∀ c ∈ cs, c.Admitted) → runCalls cs s ≠ .error .scratch := by
  induction cs with
  | nil => exact fun s _ => by simp [runCalls]
  | cons c cs ih =>
    intro s hadm
    have hc : c.run s ≠ .error .scratch := by
      cases c with
      | ac others seed => exact onDomain_ne_scratch _
      | ef starts tStarts others seed =>
        exact bDisjunctiveTasksEF_ne_scratch (by simpa [TaskCall.Admitted] using hadm _ mem_cons_self)
    simp only [runCalls, bind, Except.bind]
    cases hrun : c.run s with
    | error e => exact fun h => hc (hrun.trans h)
    | ok s₁ => exact ih s₁ fun d hd => hadm d (mem_cons_of_mem _ hd)

/-- The tasks of a machine, with durations that are not negative, whose propagators are called in any order, each call
with the tasks in any order: every schedule within the domains survives all of it, so no call fails while there is one,
and whatever the domains are no index leaves the arrays. -/
theorem disjunctiveTasks_run (ts : List Task) (cs : List TaskCall) (hnonneg : ∀ t ∈ ts, 0 ≤ t.duration)
    (hperm : ∀ c ∈ cs, c.tasks.Perm ts) (hadm : ∀ c ∈ cs, c.Admitted) (s : Store) :
    ((∀ q, .dvar q ∈ ts.map Task.start → (s q).Inv) →
      ∀ sol, Schedule s ts sol → ∃ s', runCalls cs s = .ok s' ∧ Preserves sol s s') ∧
    runCalls cs s ≠ .error .scratch := by
  constructor
  · intro hinv sol hsol
    obtain ⟨s', hs', hk'⟩ := runCalls_kept ⟨hinv, hnonneg, hsol⟩ cs s hperm hadm (freeIn_kept hinv hsol.mem)
    exact ⟨s', hs', hk'.preserves⟩
  · exact runCalls_ne_scratch cs s hadm

end

def twoTasks : List Task := [⟨.dvar 0, 2⟩, ⟨.dvar 1, 2⟩]

theorem disjunctiveTasks_run_two :
    ∃ s', runCalls [.ef (fun _ => ⟨.int 0, 0⟩) (fun _ => ⟨.int 0, 0⟩) [⟨.dvar 1, 2⟩] ⟨.dvar 0, 2⟩]
      (fun _ => auxCreateDomainVar 0 2) = .ok s' ∧ Preserves (fun r => 2 * r) (fun _ => auxCreateDomainVar 0 2) s' := by
  refine (disjunctiveTasks_run twoTasks _ (by decide) (fun c hc => ?_) (fun c hc => ?_) _).1
    (fun q _ => auxCreateDomainVar_inv (by decide)) _ ⟨fun q hq => ?_, by simp [twoTasks, Apart, FdTerm.val]⟩
  · rw [mem_singleton.1 hc]
    exact List.Perm.refl _
  · rw [mem_singleton.1 hc]
    simp [TaskCall.Admitted]
  · have hlt : q = 0 ∨ q = 1 := by simpa [twoTasks] using hq
    rcases hlt with rfl | rfl <;> exact Dvar.mem_elems.2 ⟨by decide, rfl⟩

end Picat
