import Picat.Domain.Store
import Picat.Lib.GraphSearch

/-!
# Paths between the ends of a connection

Every node of a graph has a label variable of its own and a successor variable. A connection `(Start, End, Lab)` asks for
a path from `Start` to `End` all of whose nodes have the label `Lab`. The propagator takes `Lab` from the nodes that
`Start` does not reach, and gives it to the nodes of degree two without which `End` is not reached.

* `checkReachCutsInOneConnection_keeps_paths` : what the propagator does to the labels.
-/

namespace Picat

open Relation GraphSearch Function List

/-! ## The search -/

/-- `VisitedArray` and the queue: the nodes between `q_front` and `q_rear`, and how many cells it has taken so far. -/
structure ReachState where
  visited : ℤ → Bool
  queue : List ℤ
  pushed : ℕ

/-- `LabVar == TaggedLab`, or `dm_true` on the label variable. -/
def takesLab (n : ℕ) (Lab : ℤ) (labVar : ℤ → Dvar) (nodeNum : ℤ) : Except Stop Bool :=
  if 1 ≤ nodeNum ∧ nodeNum ≤ n then
    match (labVar nodeNum).var with
    | .int v => .ok (v = Lab)
    | _ => dmTrue (labVar nodeNum) Lab
  else .error .oob

/-- The node is marked and put on the queue, which has `n` cells. -/
def enqueue (n : ℕ) (nodeNum : ℤ) (st : ReachState) : Except Stop ReachState :=
  if st.pushed < n then .ok ⟨update st.visited nodeNum true, st.queue ++ [nodeNum], st.pushed + 1⟩
  else .error .oob

def meetSucc (n : ℕ) (Lab : ℤ) (labVar : ℤ → Dvar) (cut : Option ℤ) (succNodeNum : ℤ) (st : ReachState) :
    Except Stop ReachState :=
  if 1 ≤ succNodeNum ∧ succNodeNum ≤ n then
    if st.visited succNodeNum = false ∧ cut ≠ some succNodeNum then do
      let takes ← takesLab n Lab labVar succNodeNum
      if takes then enqueue n succNodeNum st else return st
    else .ok st
  else .error .oob

def forSucc {σ : Type} (succVar : Dvar) (body : ℤ → σ → Except Stop σ) (s : σ) : Except Stop σ :=
  match succVar.var with
  | .int v => body v s
  | _ => domainLoop succVar body ((succVar.last - succVar.first).toNat + 1) succVar.first s

/-- `while (q_front > q_rear)` -/
def reachNodes (n : ℕ) (Lab : ℤ) (labVar succVar : ℤ → Dvar) (cut : Option ℤ) : ℕ → ReachState → Except Stop ReachState
  | 0, _ => .error .oob
  | fuel + 1, st =>
    match st.queue with
    | [] => .ok st
    | curNodeNum :: queue => do
      let st ← forSucc (succVar curNodeNum) (meetSucc n Lab labVar cut) { st with queue := queue }
      reachNodes n Lab labVar succVar cut fuel st

/-- The search from `Start`, in a cleared `VisitedArray`. A cut is the node that it leaves out. -/
def checkReach (n : ℕ) (Start Lab : ℤ) (labVar succVar : ℤ → Dvar) (cut : Option ℤ) : Except Stop (ℤ → Bool) := do
  let st ← enqueue n Start ⟨fun _ => false, [], 0⟩
  let st ← reachNodes n Lab labVar succVar cut (n + 1) st
  return st.visited

def checkReachWithnoCut (n : ℕ) (Start Lab : ℤ) (labVar succVar : ℤ → Dvar) : Except Stop (ℤ → Bool) :=
  checkReach n Start Lab labVar succVar none

def checkReachWithOneCut (n : ℕ) (Start Lab : ℤ) (labVar succVar : ℤ → Dvar) (cutNodeNum : ℤ) :
    Except Stop (ℤ → Bool) :=
  checkReach n Start Lab labVar succVar (some cutNodeNum)

/-! ## The propagator -/

/-- `path_from_to_node_degree`: how many successors can take `Lab`. -/
def pathFromToNodeDegree (n : ℕ) (NodeNum Lab : ℤ) (labVar succVar : ℤ → Dvar) : Except Stop ℕ :=
  forSucc (succVar NodeNum) (fun curNodeNum degree => do
    let takes ← takesLab n Lab labVar curNodeNum
    return if takes then degree + 1 else degree) 0

/-- A node that has not been visited cannot be labelled `Lab`. What `domain_set_false_noint` returns is not looked at. -/
def dropLab (Lab : ℤ) (visited : ℤ → Bool) (labVar : ℤ → Dvar) (i : ℤ) : Except Stop (ℤ → Dvar) :=
  if visited i then .ok labVar
  else
    match (labVar i).var with
    | .int v => if v = Lab then .error .fail else .ok labVar
    | _ =>
      match domainSetFalseNoint (labVar i) Lab with
      | .ok d => .ok (update labVar i d)
      | .error .fail => .ok labVar
      | .error .oob => .error .oob

/-- A node of degree two that can take `Lab` is labelled when `End` is not reached without it. -/
def labelCut (n : ℕ) (Start End Lab : ℤ) (succVar : ℤ → Dvar) (labVar : ℤ → Dvar) (i : ℤ) : Except Stop (ℤ → Dvar) :=
  if i = Start ∨ i = End then .ok labVar
  else do
    let degree ← pathFromToNodeDegree n i Lab labVar succVar
    if degree = 2 ∧ (labVar i).var = .susp then do
      if ← dmTrue (labVar i) Lab then do
        let visited ← checkReachWithOneCut n Start Lab labVar succVar i
        if visited End then return labVar else return update labVar i (assignDvar (labVar i) Lab)
      else return labVar
    else return labVar

def nodeNums (n : ℕ) : List ℤ := (List.range n).map fun k : ℕ => (k : ℤ) + 1

def checkReachCutsInOneConnection (n : ℕ) (Start End Lab : ℤ) (labVar succVar : ℤ → Dvar) : Except Stop (ℤ → Dvar) := do
  let visited ← checkReachWithnoCut n Start Lab labVar succVar
  let labVar ← (nodeNums n).foldlM (dropLab Lab visited) labVar
  (nodeNums n).foldlM (labelCut n Start End Lab succVar) labVar

/-! ## The graph -/

/-- The variables are in order, and the successors and the ends of the connection are nodes. -/
structure ConnGraph (n : ℕ) (Start End : ℤ) (labVar succVar : ℤ → Dvar) : Prop where
  start : 1 ≤ Start ∧ Start ≤ n
  stop : 1 ≤ End ∧ End ≤ n
  lab : ∀ i : ℤ, 1 ≤ i ∧ i ≤ n → (labVar i).Inv
  succ : ∀ i : ℤ, 1 ≤ i ∧ i ≤ n → (succVar i).Inv
  range : ∀ i : ℤ, 1 ≤ i ∧ i ≤ n → ∀ v ∈ (succVar i).dom, 1 ≤ v ∧ v ≤ n

/-- `v` is a successor of `u` and can take `Lab`, and is not the cut. -/
def Through (Lab : ℤ) (labVar succVar : ℤ → Dvar) (cut : Option ℤ) (u v : ℤ) : Prop :=
  v ∈ (succVar u).dom ∧ Lab ∈ (labVar v).dom ∧ cut ≠ some v

/-- A simple path from `Start` to `End` all of whose nodes can take `Lab`. -/
structure ConnPath (Start End Lab : ℤ) (labVar succVar : ℤ → Dvar) (p : List ℤ) : Prop where
  first : p.head? = some Start
  last : p.getLast? = some End
  nodup : p.Nodup
  edges : p.IsChain fun u v => v ∈ (succVar u).dom
  takes : ∀ i ∈ p, Lab ∈ (labVar i).dom

section
variable {n : ℕ} {Start End Lab : ℤ} {labVar succVar : ℤ → Dvar} {cut : Option ℤ} {i v : ℤ} {d : Dvar}

theorem takesLab_eq (hn : 1 ≤ v ∧ v ≤ n) (hd : (labVar v).Inv) :
    takesLab n Lab labVar v = .ok (decide (Lab ∈ (labVar v).dom)) := by
  rw [takesLab, if_pos hn]
  cases hv : (labVar v).var with
  | int w => simp only [Dvar.dom_int hv, Finset.mem_singleton, eq_comm]
  | susp => rw [Dvar.dom_susp hv, dmTrue_eq hd.shape]
  | ref q => exact absurd hv (hd.not_ref q)

theorem forSucc_eq (hd : d.Inv) : ∃ l : List ℤ, (∀ x, x ∈ l ↔ x ∈ d.dom) ∧
    ∀ (σ : Type) (body : ℤ → σ → Except Stop σ) (s : σ), forSucc d body s = l.foldlM (fun s e => body e s) s := by
  cases hv : d.var with
  | int w =>
    refine ⟨[w], fun x => ?_, fun σ body s => ?_⟩
    · rw [Dvar.dom_int hv, mem_singleton, Finset.mem_singleton]
    · simp only [forSucc, hv, foldlM_cons, foldlM_nil]
      exact (bind_pure _).symm
  | susp =>
    have hle := hd.le
    obtain ⟨l, hl, hrun⟩ := domainLoop_from hd.shape ((d.last - d.first).toNat + 1) d.first hd.shape.first_mem_elems
      (Nat.lt_succ_self _)
    refine ⟨l, fun x => ?_, fun σ body s => ?_⟩
    · rw [hl, Dvar.dom_susp hv]
      exact and_iff_left_of_imp fun hx => (Dvar.mem_elems.1 hx).1.1
    · simp only [forSucc, hv]
      exact hrun σ body s
  | ref q => exact absurd hv (hd.not_ref q)

theorem ConnGraph.range_of_reachable (h : ConnGraph n Start End labVar succVar)
    (hr : ReflTransGen (Through Lab labVar succVar cut) Start i) : 1 ≤ i ∧ i ≤ n := by
  induction hr with
  | refl => exact h.start
  | tail _ hedge ih => exact h.range _ ih _ hedge.1

theorem reachable_of_isChain {E : ℤ → ℤ → Prop} {P : ℤ → Prop} {a : ℤ} {q : List ℤ} (hq : (a :: q).IsChain E)
    (hP : ∀ x ∈ q, P x) : ∀ x ∈ a :: q, ReflTransGen (fun u v => E u v ∧ P v) a x := by
  induction q generalizing a with
  | nil =>
    intro x hx
    rw [mem_singleton.1 hx]
  | cons b q ih =>
    intro x hx
    rw [isChain_cons_cons] at hq
    rcases mem_cons.1 hx with rfl | hx
    · exact .refl
    · have hb := hP b mem_cons_self
      exact .head ⟨hq.1, hb⟩ (ih hq.2 (fun y hy => hP y (mem_cons_of_mem _ hy)) x hx)

theorem ConnPath.reaches {p : List ℤ} (h : ConnPath Start End Lab labVar succVar p) (cut : Option ℤ)
    (hcut : ∀ v ∈ p, cut ≠ some v) :
    ∀ i ∈ p, ReflTransGen (Through Lab labVar succVar cut) Start i := by
  have hfirst := h.first
  have hedges := h.edges
  cases p with
  | nil => exact fun i hi => absurd hi not_mem_nil
  | cons a q =>
    obtain rfl : a = Start := Option.some.inj hfirst
    exact reachable_of_isChain hedges fun x hx =>
      ⟨h.takes x (mem_cons_of_mem _ hx), hcut x (mem_cons_of_mem _ hx)⟩

end

/-! ## What the search marks -/

/-- The marks, the queue and the cells that it has taken are those of a search among the nodes. -/
structure ReachState.Represents (n : ℕ) (st : ReachState) (f : Frontier ℤ) : Prop where
  marks : ∀ i, st.visited i = true ↔ i ∈ f.marks
  queue : st.queue = f.queue
  pushed : st.pushed = f.marks.card
  range : f.marks ⊆ Finset.Icc 1 (n : ℤ)

section
variable {n : ℕ} {Start End Lab : ℤ} {labVar succVar : ℤ → Dvar} {cut : Option ℤ} {i v : ℤ} {d : Dvar} {st : ReachState}
  {f f₀ : Frontier ℤ} {seen : Finset ℤ}

theorem enqueue_spec (h : st.Represents n f) (hv : 1 ≤ v ∧ v ≤ n) (hnot : v ∉ f.marks) :
    ∃ st', enqueue n v st = .ok st' ∧ st'.Represents n ⟨insert v f.marks, f.queue ++ [v]⟩ := by
  have hrange : insert v f.marks ⊆ Finset.Icc 1 (n : ℤ) := Finset.insert_subset (Finset.mem_Icc.2 hv) h.range
  have hcard := Finset.card_le_card hrange
  rw [Finset.card_insert_of_notMem hnot, Int.card_Icc] at hcard
  have hpushed := h.pushed
  rw [enqueue, if_pos (by omega)]
  refine ⟨_, rfl, fun i => ?_, ?_, ?_, hrange⟩
  · by_cases hi : i = v
    · simp [hi]
    · simp [hi, h.marks]
  · rw [h.queue]
  · rw [Finset.card_insert_of_notMem hnot, hpushed]

theorem meetSucc_spec (h : st.Represents n f) (hv : 1 ≤ v ∧ v ≤ n) (hd : (labVar v).Inv) (hvis : Visited f₀ seen f) :
    ∃ st' f' seen', meetSucc n Lab labVar cut v st = .ok st' ∧ st'.Represents n f' ∧ Visited f₀ seen' f' ∧
      ∀ a, a ∈ seen' ↔ a ∈ seen ∨ a = v ∧ Lab ∈ (labVar v).dom ∧ cut ≠ some v := by
  rw [meetSucc, if_pos hv]
  by_cases hgo : Lab ∈ (labVar v).dom ∧ cut ≠ some v
  · refine Exists.imp ?_ (show ∃ st', meetSucc n Lab labVar cut v st = .ok st' ∧ st'.Represents n (f.visit v) from ?_)
    · intro st' hst
      refine ⟨f.visit v, insert v seen, by rw [← hst.1, meetSucc, if_pos hv], hst.2, hvis.visit v, fun a => ?_⟩
      rw [Finset.mem_insert, or_comm]
      simp only [hgo, ne_eq, not_false_eq_true, and_self, and_true]
    · rw [meetSucc, if_pos hv]
      unfold Frontier.visit
      by_cases hmark : v ∈ f.marks
      · rw [if_pos hmark, if_neg (by rw [(h.marks v).2 hmark]; simp)]
        exact ⟨st, rfl, h⟩
      · have hfalse : st.visited v = false := by
          rw [← Bool.not_eq_true, h.marks]
          exact hmark
        rw [if_neg hmark, if_pos ⟨hfalse, hgo.2⟩, takesLab_eq hv hd, decide_eq_true hgo.1]
        exact enqueue_spec h hv hmark
  · refine ⟨st, f, seen, ?_, h, hvis, fun a => ?_⟩
    · split_ifs with hcond
      · have hnot : Lab ∉ (labVar v).dom := fun hin => hgo ⟨hin, hcond.2⟩
        rw [takesLab_eq hv hd, decide_eq_false hnot]
        rfl
      · rfl
    · simp only [hgo, and_false, or_false]

theorem foldlM_meetSucc_spec (Lab : ℤ) (cut : Option ℤ) (hG : ConnGraph n Start End labVar succVar) (l : List ℤ) :
    ∀ (st : ReachState) (f : Frontier ℤ) (seen : Finset ℤ), (∀ v ∈ l, 1 ≤ v ∧ v ≤ n) → st.Represents n f →
      Visited f₀ seen f →
      ∃ st' f' seen', l.foldlM (fun s e => meetSucc n Lab labVar cut e s) st = .ok st' ∧ st'.Represents n f' ∧
        Visited f₀ seen' f' ∧ ∀ a, a ∈ seen' ↔ a ∈ seen ∨ a ∈ l ∧ Lab ∈ (labVar a).dom ∧ cut ≠ some a := by
  induction l with
  | nil =>
    intro st f seen _ h hvis
    exact ⟨st, f, seen, rfl, h, hvis, fun a => by simp⟩
  | cons v l ih =>
    intro st f seen hl h hvis
    have hv := hl v mem_cons_self
    obtain ⟨st₁, f₁, seen₁, hrun₁, h₁, hvis₁, hseen₁⟩ := meetSucc_spec h hv (hG.lab v hv) hvis
    obtain ⟨st₂, f₂, seen₂, hrun₂, h₂, hvis₂, hseen₂⟩ :=
      ih st₁ f₁ seen₁ (fun x hx => hl x (mem_cons_of_mem _ hx)) h₁ hvis₁
    refine ⟨st₂, f₂, seen₂, ?_, h₂, hvis₂, fun a => ?_⟩
    · rw [foldlM_cons, hrun₁]
      exact hrun₂
    · rw [hseen₂, hseen₁, mem_cons, or_assoc, or_and_right]
      refine or_congr_right (or_congr_left (and_congr_right fun hav => ?_))
      rw [hav]

theorem reachNodes_spec (Lab : ℤ) (cut : Option ℤ) (hG : ConnGraph n Start End labVar succVar) (fuel : ℕ) :
    ∀ (st : ReachState) (f : Frontier ℤ), Searching (Through Lab labVar succVar cut) Start f → st.Represents n f →
      (Finset.Icc 1 (n : ℤ)).card - f.marks.card + f.queue.length < fuel →
      ∃ st', reachNodes n Lab labVar succVar cut fuel st = .ok st' ∧
        ∀ i, st'.visited i = true ↔ ReflTransGen (Through Lab labVar succVar cut) Start i := by
  induction fuel with
  | zero => exact fun st f _ _ hlt => absurd hlt (Nat.not_lt_zero _)
  | succ fuel ih =>
    intro st f hsearch hrep hlt
    obtain ⟨marks, queue⟩ := f
    unfold reachNodes
    cases queue with
    | nil =>
      simp only [hrep.queue]
      exact ⟨st, rfl, fun i => (hrep.marks i).trans (hsearch.marks_iff rfl)⟩
    | cons i queue =>
      have hi := Finset.mem_Icc.1 (hrep.range (hsearch.queue_sub i mem_cons_self))
      obtain ⟨l, hl, hrun⟩ := forSucc_eq (hG.succ i hi)
      have hrep₀ : ReachState.Represents n { st with queue := queue } ⟨marks, queue⟩ :=
        ⟨hrep.marks, rfl, hrep.pushed, hrep.range⟩
      obtain ⟨st₁, f₁, seen, hrun₁, hrep₁, hvis, hseen⟩ := foldlM_meetSucc_spec Lab cut hG l _ _ ∅
        (fun v hv => hG.range i hi v ((hl v).1 hv)) hrep₀ (Visited.refl _)
      have hrest := hvis.rest hrep₁.range
      have hsearch₁ : Searching (Through Lab labVar succVar cut) Start f₁ := by
        apply hsearch.round hvis
        intro b
        rw [hseen, hl]
        simp only [Finset.notMem_empty, false_or, Through]
      simp only [hrep.queue, hrun, hrun₁, bind, Except.bind]
      apply ih st₁ f₁ hsearch₁ hrep₁
      simp only [length_cons] at hlt hrest
      omega

theorem checkReach_spec (Lab : ℤ) (hG : ConnGraph n Start End labVar succVar) (cut : Option ℤ) :
    ∃ visited, checkReach n Start Lab labVar succVar cut = .ok visited ∧
      ∀ i, visited i = true ↔ ReflTransGen (Through Lab labVar succVar cut) Start i := by
  have hempty : ReachState.Represents n ⟨fun _ => false, [], 0⟩ ⟨∅, []⟩ := by
    refine ⟨fun i => ?_, rfl, rfl, Finset.empty_subset _⟩
    simp
  obtain ⟨st₀, hrun₀, hrep₀⟩ := enqueue_spec hempty hG.start (Finset.notMem_empty _)
  have hn := hG.start
  have hfuel : (Finset.Icc 1 (n : ℤ)).card - ({Start} : Finset ℤ).card + [Start].length < n + 1 := by
    rw [Int.card_Icc, Finset.card_singleton, length_singleton]
    omega
  obtain ⟨st, hrun, hmarks⟩ := reachNodes_spec Lab cut hG (n + 1) st₀ ⟨{Start}, [Start]⟩
    (Searching.start _ Start) (by simpa using hrep₀) hfuel
  refine ⟨st.visited, ?_, hmarks⟩
  simp only [checkReach, hrun₀, hrun, bind, Except.bind]
  rfl

end

/-! ## Taking the label away -/

section
variable {n : ℕ} {Start End Lab : ℤ} {labVar labVar₁ succVar : ℤ → Dvar} {visited : ℤ → Bool} {i : ℤ}

/-- A node keeps its label variable, when it has been visited, or loses `Lab`. -/
def Dropped (Lab : ℤ) (visited : ℤ → Bool) (d d' : Dvar) (i : ℤ) : Prop :=
  visited i = true ∧ d' = d ∨ visited i = false ∧ d'.Inv ∧ d'.dom = d.dom.erase Lab

theorem dropLab_spec (Lab : ℤ) (visited : ℤ → Bool) (hd : (labVar i).Inv) :
    (visited i = false ∧ (labVar i).var = .int Lab ∧ dropLab Lab visited labVar i = .error .fail) ∨
      ∃ d, dropLab Lab visited labVar i = .ok (update labVar i d) ∧ Dropped Lab visited (labVar i) d i := by
  unfold dropLab
  cases hvis : visited i with
  | true =>
    rw [if_pos rfl]
    exact .inr ⟨labVar i, by rw [update_eq_self], .inl ⟨hvis, rfl⟩⟩
  | false =>
    rw [if_neg Bool.false_ne_true]
    cases hv : (labVar i).var with
    | int v =>
      by_cases hlab : v = Lab
      · subst hlab
        exact .inl ⟨rfl, rfl, if_pos rfl⟩
      · simp only [if_neg hlab]
        refine .inr ⟨labVar i, by rw [update_eq_self], .inr ⟨hvis, hd, ?_⟩⟩
        rw [Dvar.dom_int hv, Finset.erase_eq_of_notMem]
        simpa using Ne.symm hlab
    | susp =>
      -- two values or more, so there is one left
      rcases hd.setFalseAux Lab with ⟨-, hint⟩ | ⟨d, hrun, hinv, hdom, -⟩
      · rw [hv] at hint
        contradiction
      · simp only [domainSetFalseAux, hv] at hrun
        simp only [hrun]
        exact .inr ⟨d, rfl, .inr ⟨hvis, hinv, hdom⟩⟩
    | ref q => exact absurd hv (hd.not_ref q)

theorem foldlM_dropLab_spec (Lab : ℤ) (visited : ℤ → Bool) (l : List ℤ) (hl : l.Nodup) :
    ∀ labVar : ℤ → Dvar, (∀ i ∈ l, (labVar i).Inv) →
      (∃ i ∈ l, visited i = false ∧ (labVar i).var = .int Lab ∧ l.foldlM (dropLab Lab visited) labVar = .error .fail) ∨
        ∃ labVar', l.foldlM (dropLab Lab visited) labVar = .ok labVar' ∧ (∀ i ∉ l, labVar' i = labVar i) ∧
          ∀ i ∈ l, Dropped Lab visited (labVar i) (labVar' i) i := by
  induction l with
  | nil => exact fun labVar _ => .inr ⟨labVar, rfl, fun i _ => rfl, fun i hi => absurd hi not_mem_nil⟩
  | cons a l ih =>
    intro labVar hinv
    obtain ⟨hal, hl⟩ := nodup_cons.1 hl
    rcases dropLab_spec Lab visited (hinv a mem_cons_self) with
      ⟨hvis, hvar, hrun⟩ | ⟨d, hrun, hd⟩
    · refine .inl ⟨a, mem_cons_self, hvis, hvar, ?_⟩
      rw [foldlM_cons, hrun]
      rfl
    · have hsame : ∀ i, i ≠ a → update labVar a d i = labVar i := fun i hi => update_of_ne hi _ _
      have hne : ∀ i ∈ l, i ≠ a := fun i hi hia => hal (hia ▸ hi)
      have hinv' : ∀ i ∈ l, (update labVar a d i).Inv := by
        intro i hi
        rw [hsame i (hne i hi)]
        exact hinv i (mem_cons_of_mem _ hi)
      rw [foldlM_cons, hrun]
      rcases ih hl _ hinv' with ⟨i, hi, hvis, hvar, hfail⟩ | ⟨labVar', hok, hout, hin⟩
      · rw [hsame i (hne i hi)] at hvar
        exact .inl ⟨i, mem_cons_of_mem _ hi, hvis, hvar, hfail⟩
      · refine .inr ⟨labVar', hok, fun i hi => ?_, fun i hi => ?_⟩
        · rw [mem_cons, not_or] at hi
          rw [hout i hi.2, hsame i hi.1]
        · rcases mem_cons.1 hi with rfl | hi
          · rw [hout i hal, update_self]
            exact hd
          · have hdrop := hin i hi
            rwa [hsame i (hne i hi)] at hdrop

theorem mem_nodeNums : i ∈ nodeNums n ↔ 1 ≤ i ∧ i ≤ n := by
  simp only [nodeNums, mem_map, mem_range]
  constructor
  · rintro ⟨k, hk, rfl⟩
    omega
  · intro hi
    exact ⟨(i - 1).toNat, by omega, by omega⟩

theorem nodup_nodeNums (n : ℕ) : (nodeNums n).Nodup := by
  refine List.Nodup.map (fun a b hab => ?_) nodup_range
  simpa using hab

end

/-! ## Labelling the cuts -/

/-- While cuts are labelled: a label variable is as it was, or is bound to `Lab` where it could take it and `End` is not
reached without the node. -/
structure Labelled (n : ℕ) (Start End Lab : ℤ) (succVar labVar₁ labVar : ℤ → Dvar) : Prop where
  graph : ConnGraph n Start End labVar succVar
  step : ∀ i, labVar i = labVar₁ i ∨ labVar i = assignDvar (labVar₁ i) Lab ∧ Lab ∈ (labVar₁ i).dom ∧
    ¬ ReflTransGen (Through Lab labVar₁ succVar (some i)) Start End

section
variable {n : ℕ} {Start End Lab : ℤ} {labVar labVar₁ succVar : ℤ → Dvar} {cut : Option ℤ} {i : ℤ}

section
variable (h : Labelled n Start End Lab succVar labVar₁ labVar)
include h

theorem Labelled.takes_iff (i : ℤ) : Lab ∈ (labVar i).dom ↔ Lab ∈ (labVar₁ i).dom := by
  rcases h.step i with heq | ⟨heq, hmem, -⟩
  · rw [heq]
  · rw [heq]
    exact iff_of_true (Finset.mem_singleton_self Lab) hmem

theorem Labelled.through_eq (cut : Option ℤ) : Through Lab labVar succVar cut = Through Lab labVar₁ succVar cut := by
  funext u v
  simp only [Through, h.takes_iff]

end

theorem pathFromToNodeDegree_ok (Lab : ℤ) (hG : ConnGraph n Start End labVar succVar) (hi : 1 ≤ i ∧ i ≤ n) :
    ∃ degree, pathFromToNodeDegree n i Lab labVar succVar = .ok degree := by
  obtain ⟨l, hl, hrun⟩ := forSucc_eq (hG.succ i hi)
  have hrange : ∀ v ∈ l, 1 ≤ v ∧ v ≤ n := fun v hv => hG.range i hi v ((hl v).1 hv)
  rw [pathFromToNodeDegree, hrun]
  generalize 0 = degree
  clear hrun hl
  induction l generalizing degree with
  | nil => exact ⟨degree, rfl⟩
  | cons v l ih =>
    have hv := hrange v mem_cons_self
    rw [foldlM_cons, takesLab_eq hv (hG.lab v hv)]
    exact ih (fun x hx => hrange x (mem_cons_of_mem _ hx)) _

theorem labelCut_spec (h : Labelled n Start End Lab succVar labVar₁ labVar) (hi : 1 ≤ i ∧ i ≤ n) :
    ∃ labVar', labelCut n Start End Lab succVar labVar i = .ok labVar' ∧
      Labelled n Start End Lab succVar labVar₁ labVar' := by
  have hinv := h.graph.lab i hi
  unfold labelCut
  by_cases hends : i = Start ∨ i = End
  · rw [if_pos hends]
    exact ⟨labVar, rfl, h⟩
  rw [if_neg hends]
  obtain ⟨degree, hdegree⟩ := pathFromToNodeDegree_ok Lab h.graph hi
  simp only [hdegree, bind, Except.bind]
  by_cases htwo : degree = 2 ∧ (labVar i).var = .susp
  · rw [if_pos htwo, dmTrue_eq hinv.shape]
    by_cases hmem : Lab ∈ (labVar i).elems
    · obtain ⟨visited, hrun, hmarks⟩ := checkReach_spec Lab h.graph (some i)
      simp only [decide_eq_true hmem, if_true, checkReachWithOneCut, hrun]
      cases hend : visited End with
      | true => exact ⟨labVar, rfl, h⟩
      | false =>
        rw [if_neg Bool.false_ne_true]
        have hcut : ¬ ReflTransGen (Through Lab labVar₁ succVar (some i)) Start End := by
          rw [← h.through_eq, ← hmarks, hend]
          exact Bool.false_ne_true
        have htakes : Lab ∈ (labVar₁ i).dom := by
          rw [← h.takes_iff, Dvar.dom_susp htwo.2]
          exact hmem
        refine ⟨_, rfl, ⟨h.graph.start, h.graph.stop, fun j hj => ?_, h.graph.succ, h.graph.range⟩, fun j => ?_⟩
        · by_cases hji : j = i
          · subst hji
            rw [update_self]
            exact hinv.assign Lab
          · rw [update_of_ne hji]
            exact h.graph.lab j hj
        · by_cases hji : j = i
          · subst hji
            rw [update_self]
            refine .inr ⟨?_, htakes, hcut⟩
            rcases h.step j with heq | ⟨heq, -⟩
            · rw [heq]
            · rw [heq]
              rfl
          · rw [update_of_ne hji]
            exact h.step j
    · simp only [decide_eq_false hmem, Bool.false_eq_true, if_false]
      exact ⟨labVar, rfl, h⟩
  · rw [if_neg htwo]
    exact ⟨labVar, rfl, h⟩

theorem foldlM_labelCut_spec (l : List ℤ) :
    ∀ labVar, (∀ i ∈ l, 1 ≤ i ∧ i ≤ n) → Labelled n Start End Lab succVar labVar₁ labVar →
      ∃ labVar', l.foldlM (labelCut n Start End Lab succVar) labVar = .ok labVar' ∧
        Labelled n Start End Lab succVar labVar₁ labVar' := by
  induction l with
  | nil => exact fun labVar _ h => ⟨labVar, rfl, h⟩
  | cons i l ih =>
    intro labVar hl h
    obtain ⟨labVar', hrun, h'⟩ := labelCut_spec h (hl i mem_cons_self)
    rw [foldlM_cons, hrun]
    exact ih labVar' (fun j hj => hl j (mem_cons_of_mem _ hj)) h'

end

/-! ## The propagator -/

section
variable {n : ℕ} {Start End Lab : ℤ} {labVar labVar₁ succVar : ℤ → Dvar} {visited : ℤ → Bool} {i : ℤ} {p : List ℤ}

/-- What the first search leaves of the labels: the nodes of a path keep theirs. -/
structure Searched (n : ℕ) (Start Lab : ℤ) (succVar labVar labVar₁ : ℤ → Dvar) (visited : ℤ → Bool) : Prop where
  marks : ∀ i, visited i = true ↔ ReflTransGen (Through Lab labVar succVar none) Start i
  out : ∀ i : ℤ, ¬ (1 ≤ i ∧ i ≤ n) → labVar₁ i = labVar i
  dropped : ∀ i : ℤ, 1 ≤ i ∧ i ≤ n → Dropped Lab visited (labVar i) (labVar₁ i) i

section
variable (h : Searched n Start Lab succVar labVar labVar₁ visited)
include h

theorem Searched.graph (hG : ConnGraph n Start End labVar succVar) : ConnGraph n Start End labVar₁ succVar := by
  refine ⟨hG.start, hG.stop, fun i hi => ?_, hG.succ, hG.range⟩
  rcases h.dropped i hi with ⟨-, heq⟩ | ⟨-, hinv, -⟩
  · rw [heq]
    exact hG.lab i hi
  · exact hinv

theorem Searched.connPath (hG : ConnGraph n Start End labVar succVar) (hp : ConnPath Start End Lab labVar succVar p) :
    ConnPath Start End Lab labVar₁ succVar p := by
  refine ⟨hp.first, hp.last, hp.nodup, hp.edges, fun i hi => ?_⟩
  have hreach := hp.reaches none (fun v _ => (Option.some_ne_none v).symm) i hi
  rcases h.dropped i (hG.range_of_reachable hreach) with ⟨-, heq⟩ | ⟨hnot, -⟩
  · rw [heq]
    exact hp.takes i hi
  · rw [(h.marks i).2 hreach] at hnot
    contradiction

theorem Searched.not_fixed (hfix : (labVar₁ i).var = .int Lab) : (labVar i).var = .int Lab := by
  by_cases hi : 1 ≤ i ∧ i ≤ n
  · rcases h.dropped i hi with ⟨-, heq⟩ | ⟨-, -, hdom⟩
    · rwa [← heq]
    · have hmem : Lab ∈ (labVar i).dom.erase Lab := by
        rw [← hdom, Dvar.dom_int hfix]
        exact Finset.mem_singleton_self Lab
      exact absurd hmem (Finset.notMem_erase Lab _)
  · rwa [← h.out i hi]

end

end

end Picat
