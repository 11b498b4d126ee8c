import Picat.Domain.Store
import Picat.Lib.GraphSearch

/-!
# Reachability in the circuit propagators

The variables of a vector are the edges of a graph on its indices: node `i` leads to the values that the `i`-th one can
still take. `c_reachability_test` asks whether node 1 reaches every node, `c_subcircuit_test` whether the nodes that
`Begin` does not reach can be left alone, and binds each of them to itself. Both search the graph with marks in
`scc_nodes` and a queue behind it in the free area.

* `cReachabilityTest_cSubcircuitTest_iff` : when the tests succeed.
-/

namespace Picat

open Relation GraphSearch Function Finset

/-! ## The tests -/

/-- The locals of the search: `scc_nodes`, the queue from `front` to `rear`, and `count`. -/
structure SearchState where
  sccNodes : ℤ → Bool
  queue : List ℤ
  count : ℤ

/-- One value: a node that is not marked yet is marked and put on the queue. The flag is the early `return BP_TRUE`, which
only the first test has. -/
def visitElm (early : Bool) (N : ℤ) (elm : ℤ) (st : SearchState) : Except Stop (SearchState × Bool) :=
  if 1 ≤ elm ∧ elm ≤ N then
    if st.sccNodes elm then .ok (st, false)
    else
      let count := st.count + 1
      .ok (⟨update st.sccNodes elm true, st.queue ++ [elm], count⟩, early && count = N)
  else .error .oob

def visitLoop (early : Bool) (N : ℤ) (d : Dvar) : ℕ → ℤ → SearchState → Except Stop (SearchState × Bool)
  | 0, _, _ => .error .oob
  | fuel + 1, elm, st => do
      let (st, done) ← visitElm early N elm st
      if done then return (st, true)
      else if elm = d.last then return (st, false)
      else do
        let elm ← nextElm d elm
        visitLoop early N d fuel elm st

def visitVar (early : Bool) (N : ℤ) (s : Store) (var : FdTerm) (st : SearchState) : Except Stop (SearchState × Bool) :=
  match deref s var with
  | .dvar r => visitLoop early N (s r) (((s r).last - (s r).first).toNat + 1) (s r).first st
  | .int elm => visitElm early N elm st

/-- `FOLLOW(var_vect_ptr+i)` -/
def vectArg (Xs : List FdTerm) (i : ℤ) : Option FdTerm := if 1 ≤ i then Xs[(i - 1).toNat]? else none

/-- `while (front < rear)` -/
def reachLoop (early : Bool) (s : Store) (Xs : List FdTerm) : ℕ → SearchState → Except Stop (SearchState × Bool)
  | 0, _ => .error .oob
  | fuel + 1, st =>
    match st.queue with
    | [] => .ok (st, false)
    | i :: queue =>
      match vectArg Xs i with
      | none => .error .oob
      | some var => do
          let (st, done) ← visitVar early Xs.length s var { st with queue := queue }
          if done then return (st, true) else reachLoop early s Xs fuel st

def searchFrom (early : Bool) (s : Store) (Xs : List FdTerm) (root : ℤ) : Except Stop (SearchState × Bool) :=
  reachLoop early s Xs (Xs.length + 1) ⟨fun i => i = root, [root], 1⟩

def cReachabilityTest (s : Store) (Xs : List FdTerm) : Except Stop Bool := do
  let (st, done) ← searchFrom true s Xs 1
  if done then return true else return st.count = Xs.length

/-- One node of the last loop of `c_subcircuit_test`: one that is not marked has to lead to itself. -/
def bindToSelf (sccNodes : ℤ → Bool) (x : FdTerm) (i : ℤ) (s : Store) : Except Stop Store :=
  if sccNodes i then .ok s
  else
    match deref s x with
    | .dvar r => do
        if ← dmTrue (s r) i then return update s r (assignDvar (s r) i) else .error .fail
    | .int elm => if elm ≠ i then .error .fail else .ok s

/-- The last loop of `c_subcircuit_test`, from the node `i` on. -/
def bindRest (sccNodes : ℤ → Bool) : List FdTerm → ℤ → Store → Except Stop Store
  | [], _, s => .ok s
  | x :: xs, i, s => do
      let s ← bindToSelf sccNodes x i s
      bindRest sccNodes xs (i + 1) s

def cSubcircuitTest (s : Store) (Begin : ℤ) (Xs : List FdTerm) : Except Stop Store := do
  let (st, _) ← searchFrom false s Xs Begin
  bindRest st.sccNodes Xs 1 s

/-! ## The graph -/

/-- Node `i` leads to `v`. -/
def Edge (s : Store) (Xs : List FdTerm) (i v : ℤ) : Prop := ∃ x, vectArg Xs i = some x ∧ v ∈ x.dom s

/-- A vector of domain variables over its own indices, which is how the callers set the domains. -/
structure CircuitVector (s : Store) (Xs : List FdTerm) : Prop where
  inv : ∀ r, .dvar r ∈ Xs → (s r).Inv
  range : ∀ x ∈ Xs, ∀ v ∈ x.dom s, 1 ≤ v ∧ v ≤ (Xs.length : ℤ)

section
variable {s : Store} {Xs : List FdTerm} {x : FdTerm} {i v N root : ℤ}

theorem vectArg_mem (h : vectArg Xs i = some x) : x ∈ Xs := by
  unfold vectArg at h
  split at h
  · exact List.mem_of_getElem? h
  · contradiction

theorem exists_vectArg (h : 1 ≤ i ∧ i ≤ (Xs.length : ℤ)) : ∃ x, vectArg Xs i = some x := by
  have hlt : (i - 1).toNat < Xs.length := by omega
  refine ⟨Xs[(i - 1).toNat], ?_⟩
  rw [vectArg, if_pos h.1]
  exact List.getElem?_eq_getElem hlt

theorem CircuitVector.range_of_reachable (h : CircuitVector s Xs) (hroot : 1 ≤ root ∧ root ≤ (Xs.length : ℤ))
    (hr : ReflTransGen (Edge s Xs) root i) : 1 ≤ i ∧ i ≤ (Xs.length : ℤ) := by
  induction hr with
  | refl => exact hroot
  | tail _ hedge _ =>
    obtain ⟨x, hx, hv⟩ := hedge
    exact h.range x (vectArg_mem hx) _ hv

end

/-! ## The search -/

/-- The marks, the queue and the count are those of a search among the nodes up to `N`. -/
structure SearchState.Represents (N : ℤ) (st : SearchState) (f : Frontier ℤ) : Prop where
  marks : ∀ i, st.sccNodes i = true ↔ i ∈ f.marks
  queue : st.queue = f.queue
  count : st.count = f.marks.card
  range : f.marks ⊆ Finset.Icc 1 N

section
variable {s : Store} {Xs : List FdTerm} {x : FdTerm} {N elm root : ℤ} {st : SearchState} {f f₀ : Frontier ℤ} {d : Dvar}
  {seen : Finset ℤ}

theorem SearchState.Represents.all_marked (h : st.Represents N f) (hcount : st.count = N) :
    f.marks = Finset.Icc 1 N := by
  apply eq_of_subset_of_card_le h.range
  rw [Int.card_Icc]
  have hcard := h.count
  omega

/-- A value is visited, and the search stops early when that has marked the last node. -/
theorem visitElm_spec (early : Bool) (h : st.Represents N f) (helm : 1 ≤ elm ∧ elm ≤ N) :
    ∃ st' done, visitElm early N elm st = .ok (st', done) ∧ st'.Represents N (f.visit elm) ∧
      (done = true → (f.visit elm).marks = Finset.Icc 1 N) := by
  unfold visitElm Frontier.visit
  rw [if_pos helm]
  by_cases hmark : st.sccNodes elm = true
  · rw [if_pos hmark, if_pos ((h.marks elm).1 hmark)]
    exact ⟨st, false, rfl, h, fun hdone => absurd hdone Bool.false_ne_true⟩
  · have hnot : elm ∉ f.marks := fun hin => hmark ((h.marks elm).2 hin)
    rw [if_neg hmark, if_neg hnot]
    have hrep : SearchState.Represents N ⟨update st.sccNodes elm true, st.queue ++ [elm], st.count + 1⟩
        ⟨insert elm f.marks, f.queue ++ [elm]⟩ := by
      refine ⟨fun i => ?_, ?_, ?_, ?_⟩
      · by_cases hi : i = elm
        · simp [hi]
        · simp [hi, h.marks]
      · rw [h.queue]
      · simp only [card_insert_of_notMem hnot, h.count, Nat.cast_add, Nat.cast_one]
      · exact insert_subset (mem_Icc.2 helm) h.range
    refine ⟨_, _, rfl, hrep, fun hdone => hrep.all_marked ?_⟩
    simp only [Bool.and_eq_true, decide_eq_true_eq] at hdone
    exact hdone.2

theorem visitLoop_spec (early : Bool) (hd : d.Shape) (hrange : ∀ v ∈ d.elems, 1 ≤ v ∧ v ≤ N) (fuel : ℕ) :
    ∀ (elm : ℤ) (st : SearchState) (f : Frontier ℤ) (seen : Finset ℤ), d.last - elm < fuel → elm ∈ d.elems →
      st.Represents N f → Visited f₀ seen f → (∀ a, a ∈ seen ↔ a ∈ d.elems ∧ a < elm) →
      ∃ st' done f' seen', visitLoop early N d fuel elm st = .ok (st', done) ∧ st'.Represents N f' ∧
        Visited f₀ seen' f' ∧ seen' ⊆ d.elems ∧ (done = true → f'.marks = Finset.Icc 1 N) ∧
        (done = false → seen' = d.elems) := by
  induction fuel with
  | zero =>
    intro elm st f seen hlt helm
    have hlast := (Dvar.mem_elems.1 helm).1.2
    omega
  | succ fuel ih =>
    intro elm st f seen hlt helm hrep hvis hseen
    obtain ⟨st₁, done, hrun, hrep₁, hdone⟩ := visitElm_spec early hrep (hrange elm helm)
    have hvis₁ := hvis.visit elm
    have hsub : insert elm seen ⊆ d.elems := insert_subset helm fun a ha => ((hseen a).1 ha).1
    simp only [visitLoop, hrun, bind, Except.bind]
    cases done with
    | true => exact ⟨st₁, true, _, _, rfl, hrep₁, hvis₁, hsub, hdone, fun h => by contradiction⟩
    | false =>
      rw [if_neg Bool.false_ne_true]
      by_cases hlast : elm = d.last
      · rw [if_pos hlast]
        refine ⟨st₁, false, _, _, rfl, hrep₁, hvis₁, hsub, hdone, fun _ => ?_⟩
        apply Finset.Subset.antisymm hsub
        intro a ha
        have hle := (Dvar.mem_elems.1 ha).1.2
        by_cases hae : a = elm
        · exact hae ▸ mem_insert_self _ _
        · exact mem_insert_of_mem ((hseen a).2 ⟨ha, by omega⟩)
      · rw [if_neg hlast]
        have hin := Dvar.mem_elems.1 helm
        obtain ⟨e, he, hnext, hel⟩ := nextElm_eq hd (show d.first ≤ elm + 1 by omega) (show elm < d.last by omega)
        have hge := hnext.le
        simp only [he]
        refine ih e st₁ _ _ (by push_cast at hlt; omega) (Dvar.mem_elems.2 ⟨⟨by omega, hel⟩, hnext.mem⟩) hrep₁ hvis₁
          fun a => ?_
        rw [mem_insert, hseen]
        constructor
        · rintro (rfl | ⟨ha, hlt⟩)
          · exact ⟨helm, by omega⟩
          · exact ⟨ha, by omega⟩
        · intro hp
          obtain ⟨ha, hae⟩ := hp
          by_cases hlow : a < elm
          · exact .inr ⟨ha, hlow⟩
          · apply Or.inl
            by_contra hne
            -- the next element is the least one from `elm + 1` on
            have hleast := hnext.le_of_mem (show elm + 1 ≤ a by omega) (Dvar.mem_elems.1 ha).2
            omega

theorem visitVar_spec (early : Bool) (hx : ∀ r, x = .dvar r → (s r).Inv) (hrange : ∀ v ∈ x.dom s, 1 ≤ v ∧ v ≤ N)
    (hrep : st.Represents N f) :
    ∃ st' done f' seen, visitVar early N s x st = .ok (st', done) ∧ st'.Represents N f' ∧ Visited f seen f' ∧
      seen ⊆ x.dom s ∧ (done = true → f'.marks = Finset.Icc 1 N) ∧ (done = false → seen = x.dom s) := by
  unfold visitVar
  rcases deref_inv hx with ⟨v, hv, hdom⟩ | ⟨r, rfl, hv, hvar, hinv, hdom⟩
  · rw [hdom] at hrange ⊢
    obtain ⟨st', done, hrun, hrep', hdone⟩ := visitElm_spec early hrep (hrange v (mem_singleton_self v))
    simp only [hv]
    exact ⟨st', done, _, {v}, hrun, hrep', (Visited.refl f).visit v, Finset.Subset.refl _, hdone, fun _ => rfl⟩
  · rw [hdom] at hrange ⊢
    have hle := hinv.le
    simp only [hv]
    refine visitLoop_spec early hinv.shape hrange _ _ st f ∅ (by push_cast; omega) hinv.shape.first_mem_elems hrep
      (Visited.refl f) fun a => ?_
    constructor
    · intro ha
      exact absurd ha (notMem_empty a)
    · intro h
      obtain ⟨ha, hlt⟩ := h
      have hfirst := (Dvar.mem_elems.1 ha).1.1
      omega

section
variable (early : Bool) (hX : CircuitVector s Xs) (hroot : 1 ≤ root ∧ root ≤ (Xs.length : ℤ))
include early hX hroot

/-- At the end of the search the marked nodes are those that `root` reaches; it stops early with all of them. -/
theorem reachLoop_spec
    (fuel : ℕ) : ∀ (st : SearchState) (f : Frontier ℤ), Searching (Edge s Xs) root f → st.Represents Xs.length f →
      (Finset.Icc (1 : ℤ) Xs.length).card - f.marks.card + f.queue.length < fuel →
      ∃ st' done f', reachLoop early s Xs fuel st = .ok (st', done) ∧ st'.Represents Xs.length f' ∧
        (∀ i, i ∈ f'.marks ↔ ReflTransGen (Edge s Xs) root i) ∧
        (done = true → f'.marks = Finset.Icc (1 : ℤ) Xs.length) := by
  induction fuel with
  | zero => exact fun st f _ _ hlt => absurd hlt (Nat.not_lt_zero _)
  | succ fuel ih =>
    intro st f hsearch hrep hlt
    obtain ⟨marks, queue⟩ := f
    unfold reachLoop
    cases queue with
    | nil =>
      simp only [hrep.queue]
      exact ⟨st, false, _, rfl, hrep, fun i => hsearch.marks_iff rfl, fun h => by contradiction⟩
    | cons i queue =>
      have hi := mem_Icc.1 (hrep.range (hsearch.queue_sub i List.mem_cons_self))
      obtain ⟨x, hx⟩ := exists_vectArg hi
      have hxmem := vectArg_mem hx
      have hrep₀ : SearchState.Represents Xs.length { st with queue := queue } ⟨marks, queue⟩ :=
        ⟨hrep.marks, rfl, hrep.count, hrep.range⟩
      obtain ⟨st₁, done, f₁, seen, hrun, hrep₁, hvis, hsub, hdone, hall⟩ := visitVar_spec early
        (fun r hr => hX.inv r (hr ▸ hxmem)) (hX.range x hxmem) hrep₀
      have hedge : ∀ b, b ∈ x.dom s ↔ Edge s Xs i b := by
        intro b
        constructor
        · exact fun hb => ⟨x, hx, hb⟩
        · intro hp
          obtain ⟨y, hy, hb⟩ := hp
          rwa [Option.some.inj (hx.symm.trans hy)]
      simp only [hrep.queue, hx, hrun, bind, Except.bind]
      cases done with
      | true =>
        refine ⟨st₁, true, f₁, rfl, hrep₁, fun j => ?_, hdone⟩
        constructor
        · exact hsearch.reach_of_visited hvis (fun b hb => (hedge b).1 (hsub hb)) j
        · intro hj
          rw [hdone rfl]
          exact mem_Icc.2 (hX.range_of_reachable hroot hj)
      | false =>
        rw [if_neg Bool.false_ne_true]
        have hrest := hvis.rest hrep₁.range
        have hsearch₁ : Searching (Edge s Xs) root f₁ := hsearch.round hvis fun b => by rw [hall rfl, hedge]
        apply ih st₁ f₁ hsearch₁ hrep₁
        simp only [List.length_cons] at hlt hrest
        omega

theorem searchFrom_spec : ∃ st done, searchFrom early s Xs root = .ok (st, done) ∧
      (∀ i, st.sccNodes i = true ↔ ReflTransGen (Edge s Xs) root i) ∧
      (st.count = Xs.length ↔ ∀ i, 1 ≤ i → i ≤ (Xs.length : ℤ) → ReflTransGen (Edge s Xs) root i) ∧
      (done = true → st.count = Xs.length) := by
  have hrep : SearchState.Represents Xs.length ⟨fun i => i = root, [root], 1⟩ ⟨{root}, [root]⟩ := by
    refine ⟨fun i => ?_, rfl, ?_, ?_⟩
    · simp only [decide_eq_true_eq, mem_singleton]
    · simp only [card_singleton, Nat.cast_one]
    · exact singleton_subset_iff.2 (mem_Icc.2 hroot)
  obtain ⟨st, done, f, hrun, hrep', hmarks, hdone⟩ := reachLoop_spec early hX hroot (Xs.length + 1) _ _
    (Searching.start _ root) hrep (by simp only [Int.card_Icc, card_singleton, List.length_singleton]; omega)
  have hcount : st.count = Xs.length ↔ f.marks = Finset.Icc (1 : ℤ) Xs.length := by
    constructor
    · exact hrep'.all_marked
    · intro hall
      rw [hrep'.count, hall, Int.card_Icc]
      omega
  refine ⟨st, done, hrun, fun i => (hrep'.marks i).trans (hmarks i), ?_, fun h => hcount.2 (hdone h)⟩
  rw [hcount]
  constructor
  · intro hall i h1 hN
    exact (hmarks i).1 (hall ▸ mem_Icc.2 ⟨h1, hN⟩)
  · intro hall
    apply Finset.Subset.antisymm hrep'.range
    intro i hi
    exact (hmarks i).2 (hall i (mem_Icc.1 hi).1 (mem_Icc.1 hi).2)

end

end

/-! ## Binding the rest to themselves -/

section
variable {s s₀ : Store} {Xs xs : List FdTerm} {x : FdTerm} {i : ℤ} {sccNodes : ℤ → Bool}

/-- The unmarked nodes of `xs`, which stand from `i` on, can lead to themselves: each has itself in its domain, and none
of the free variables stands for two of them. -/
structure LeftAlone (sccNodes : ℤ → Bool) (s : Store) (xs : List FdTerm) (i : ℤ) : Prop where
  self : ∀ (k : ℕ) (x : FdTerm), xs[k]? = some x → sccNodes (i + k) = false → i + k ∈ x.dom s
  distinct : ∀ (j k : ℕ) (r : ℕ), xs[j]? = some (.dvar r) → xs[k]? = some (.dvar r) → (s r).var = .susp →
    sccNodes (i + j) = false → sccNodes (i + k) = false → j = k

def SelfBound (sccNodes : ℤ → Bool) (x : FdTerm) (i : ℤ) (s s' : Store) : Prop :=
  (s' = s ∧ (sccNodes i = false → ∀ r, x = .dvar r → (s r).var ≠ .susp)) ∨
    ∃ r, sccNodes i = false ∧ x = .dvar r ∧ (s r).var = .susp ∧ s' = update s r (assignDvar (s r) i)

theorem bindToSelf_spec (sccNodes : ℤ → Bool) (i : ℤ) (hx : ∀ r, x = .dvar r → (s r).Inv) :
    ((sccNodes i = false → i ∈ x.dom s) ∧ ∃ s', bindToSelf sccNodes x i s = .ok s' ∧ SelfBound sccNodes x i s s') ∨
      (¬ (sccNodes i = false → i ∈ x.dom s) ∧ bindToSelf sccNodes x i s = .error .fail) := by
  unfold bindToSelf
  by_cases hmark : sccNodes i = true
  · rw [if_pos hmark, hmark]
    exact .inl ⟨fun h => by contradiction, s, rfl, .inl ⟨rfl, fun h => by rw [hmark] at h; contradiction⟩⟩
  rw [Bool.not_eq_true] at hmark
  rw [if_neg (by rw [hmark]; exact Bool.false_ne_true)]
  simp only [hmark, forall_const]
  rcases deref_inv hx with ⟨v, hv, hdom⟩ | ⟨r, rfl, hv, hvar, hinv, hdom⟩
  · simp only [hv, hdom, mem_singleton]
    by_cases hvi : v = i
    · rw [if_neg (not_not.2 hvi)]
      refine .inl ⟨hvi.symm, s, rfl, .inl ⟨rfl, fun _ r hr hsusp => ?_⟩⟩
      rw [hr] at hv
      simp only [deref, hsusp, reduceCtorEq] at hv
    · rw [if_pos hvi]
      exact .inr ⟨fun h => hvi h.symm, rfl⟩
  · simp only [hv, hdom, dmTrue_eq hinv.shape, bind, Except.bind]
    by_cases hmem : i ∈ (s r).elems
    · rw [if_pos (decide_eq_true hmem)]
      exact .inl ⟨hmem, _, rfl, .inr ⟨r, hmark, rfl, hvar, rfl⟩⟩
    · rw [if_neg (by simpa using hmem)]
      exact .inr ⟨hmem, rfl⟩

theorem SelfBound.inv {s' : Store} (h : SelfBound sccNodes x i s s') {q : ℕ} (hq : (s q).Inv) : (s' q).Inv := by
  rcases h with ⟨rfl, -⟩ | ⟨r, -, -, -, rfl⟩
  · exact hq
  · by_cases hqr : q = r
    · subst hqr
      rw [update_self]
      exact hq.assign i
    · rwa [update_of_ne hqr]

theorem FdTerm.dom_update {r : ℕ} {d : Dvar} (hx : x ≠ .dvar r) : x.dom (update s r d) = x.dom s := by
  cases x with
  | int v => rfl
  | dvar q =>
    have hqr : q ≠ r := fun h => hx (h ▸ rfl)
    simp only [FdTerm.dom, update_of_ne hqr]

/-- No later unmarked node is the free variable `x`, which stands for the unmarked node `i`. -/
def NotAgain (sccNodes : ℤ → Bool) (s : Store) (x : FdTerm) (xs : List FdTerm) (i : ℤ) : Prop :=
  ∀ r, x = .dvar r → (s r).var = .susp → sccNodes i = false →
    ∀ k : ℕ, xs[k]? = some (.dvar r) → sccNodes (i + 1 + k) = true

theorem leftAlone_cons_iff : LeftAlone sccNodes s (x :: xs) i ↔
      (sccNodes i = false → i ∈ x.dom s) ∧ NotAgain sccNodes s x xs i ∧ LeftAlone sccNodes s xs (i + 1) := by
  have hzero : i + ((0 : ℕ) : ℤ) = i := by rw [Nat.cast_zero, add_zero]
  have hshift : ∀ k : ℕ, i + ((k + 1 : ℕ) : ℤ) = i + 1 + k := fun k => by push_cast; ring
  constructor
  · intro h
    refine ⟨fun hm => ?_, fun r hx hsusp hm k hk => ?_, fun k y hy hk => ?_, fun j k r hj hk hr hjm hkm => ?_⟩
    · have hin := h.self 0 x rfl (by rwa [hzero])
      rwa [hzero] at hin
    · subst hx
      by_contra hkm
      rw [Bool.not_eq_true, ← hshift] at hkm
      exact absurd (h.distinct 0 (k + 1) r rfl hk hsusp (by rwa [hzero]) hkm) (Nat.succ_ne_zero k).symm
    · rw [← hshift] at hk ⊢
      exact h.self (k + 1) y hy hk
    · rw [← hshift] at hjm hkm
      exact Nat.succ.inj (h.distinct (j + 1) (k + 1) r hj hk hr hjm hkm)
  · intro h
    obtain ⟨hself, hagain, h⟩ := h
    -- the first node against a later one
    have hfirst : ∀ (k : ℕ) (r : ℕ), x = .dvar r → xs[k]? = some (.dvar r) → (s r).var = .susp →
        sccNodes i = false → sccNodes (i + ((k + 1 : ℕ) : ℤ)) = false → False := by
      intro k r hx hk hr him hkm
      rw [hshift, hagain r hx hr him k hk] at hkm
      cases hkm
    refine ⟨fun k y hy hk => ?_, fun j k r hj hk hr hjm hkm => ?_⟩
    · cases k with
      | zero =>
        rw [hzero] at hk ⊢
        obtain rfl : x = y := Option.some.inj hy
        exact hself hk
      | succ k =>
        rw [hshift] at hk ⊢
        exact h.self k y hy hk
    · cases j with
      | zero =>
        cases k with
        | zero => rfl
        | succ k => exact (hfirst k r (Option.some.inj hj) hk hr (by rwa [hzero] at hjm) hkm).elim
      | succ j =>
        cases k with
        | zero => exact (hfirst j r (Option.some.inj hk) hj hr (by rwa [hzero] at hkm) hjm).elim
        | succ k =>
          rw [hshift] at hjm hkm
          rw [h.distinct j k r hj hk hr hjm hkm]

/-- Once a variable is bound to a node, a later unmarked node that it stands for cannot lead to itself. -/
theorem leftAlone_update {r : ℕ} (hvar : (s r).var = .susp) (hmark : sccNodes i = false) :
    LeftAlone sccNodes (update s r (assignDvar (s r) i)) xs (i + 1) ↔
      NotAgain sccNodes s (.dvar r) xs i ∧ LeftAlone sccNodes s xs (i + 1) := by
  have hbound : (FdTerm.dvar r).dom (update s r (assignDvar (s r) i)) = {i} := by
    simp only [FdTerm.dom, update_self]
    exact Dvar.dom_int rfl
  constructor
  · intro h
    have hagain : ∀ k : ℕ, xs[k]? = some (.dvar r) → sccNodes (i + 1 + k) = true := by
      intro k hk
      by_contra hm
      have hin := h.self k _ hk (Bool.not_eq_true _ ▸ hm)
      rw [hbound, mem_singleton] at hin
      omega
    refine ⟨fun q hq _ _ => ?_, fun k y hy hk => ?_, fun j k q hj hk hq hjm hkm => ?_⟩
    · obtain rfl := FdTerm.dvar.inj hq
      exact hagain
    · have hne : y ≠ .dvar r := by
        rintro rfl
        rw [hagain k hy] at hk
        cases hk
      rw [← FdTerm.dom_update hne]
      exact h.self k y hy hk
    · have hqr : q ≠ r := by
        rintro rfl
        rw [hagain j hj] at hjm
        cases hjm
      exact h.distinct j k q hj hk (by rwa [update_of_ne hqr]) hjm hkm
  · intro h
    obtain ⟨hagain, h⟩ := h
    have hagain := hagain r rfl hvar hmark
    refine ⟨fun k y hy hk => ?_, fun j k q hj hk hq hjm hkm => ?_⟩
    · have hne : y ≠ .dvar r := by
        rintro rfl
        rw [hagain k hy] at hk
        cases hk
      rw [FdTerm.dom_update hne]
      exact h.self k y hy hk
    · have hqr : q ≠ r := by
        rintro rfl
        rw [hagain j hj] at hjm
        cases hjm
      exact h.distinct j k q hj hk (by rwa [update_of_ne hqr] at hq) hjm hkm

theorem leftAlone_cons {s' : Store} (hself : sccNodes i = false → i ∈ x.dom s) (h : SelfBound sccNodes x i s s') :
    LeftAlone sccNodes s (x :: xs) i ↔ LeftAlone sccNodes s' xs (i + 1) := by
  rw [leftAlone_cons_iff, and_iff_right hself]
  rcases h with ⟨rfl, hfree⟩ | ⟨r, hmark, rfl, hvar, rfl⟩
  · apply and_iff_right
    intro r hx hsusp hm
    exact absurd hsusp (hfree hm r hx)
  · exact (leftAlone_update hvar hmark).symm

theorem bindRest_spec (sccNodes : ℤ → Bool) (xs : List FdTerm) : ∀ (i : ℤ) (s : Store),
    (∀ r, .dvar r ∈ xs → (s r).Inv) → (LeftAlone sccNodes s xs i ∧ ∃ s', bindRest sccNodes xs i s = .ok s') ∨
        (¬ LeftAlone sccNodes s xs i ∧ bindRest sccNodes xs i s = .error .fail) := by
  induction xs with
  | nil =>
    intro i s _
    exact .inl ⟨⟨fun k x hk => by simp at hk, fun j k r hj => by simp at hj⟩, s, rfl⟩
  | cons x xs ih =>
    intro i s hinv
    rcases bindToSelf_spec sccNodes i (s := s) (x := x) (fun r hr => hinv r (hr ▸ List.mem_cons_self)) with
      ⟨hself, s₁, hrun, hbound⟩ | ⟨hself, hfail⟩
    · simp only [bindRest, hrun, bind, Except.bind, leftAlone_cons hself hbound]
      exact ih (i + 1) s₁ fun r hr => hbound.inv (hinv r (List.mem_cons_of_mem _ hr))
    · refine .inr ⟨fun h => hself fun hm => ?_, by simp only [bindRest, hfail, bind, Except.bind]⟩
      have hi := h.self 0 x rfl (by rwa [Nat.cast_zero, add_zero])
      rwa [Nat.cast_zero, add_zero] at hi

/-! ## When the tests succeed -/

/-- The nodes that the search has not marked can be left alone, in terms of the graph. -/
theorem leftAlone_iff {root : ℤ} (hmarks : ∀ i, sccNodes i = true ↔ ReflTransGen (Edge s Xs) root i) :
    LeftAlone sccNodes s Xs 1 ↔ (∀ i x, vectArg Xs i = some x → i ∉ x.dom s → ReflTransGen (Edge s Xs) root i) ∧
        ∀ i j r, vectArg Xs i = some (.dvar r) → vectArg Xs j = some (.dvar r) → (s r).var = .susp →
          ¬ ReflTransGen (Edge s Xs) root i → ¬ ReflTransGen (Edge s Xs) root j → i = j := by
  have hunmarked : ∀ i, sccNodes i = false ↔ ¬ ReflTransGen (Edge s Xs) root i := fun i => by
    rw [← hmarks, Bool.not_eq_true]
  have hindex : ∀ (k : ℕ) (x : FdTerm), Xs[k]? = some x ↔ vectArg Xs (1 + k) = some x := by
    intro k x
    rw [vectArg, if_pos (by omega), show (1 + (k : ℤ) - 1).toNat = k by omega]
  have hback : ∀ i x, vectArg Xs i = some x → ∃ k : ℕ, i = 1 + k := by
    intro i x hi
    unfold vectArg at hi
    split at hi
    · exact ⟨(i - 1).toNat, by omega⟩
    · contradiction
  constructor
  · intro h
    obtain ⟨hself, hdistinct⟩ := h
    constructor
    · intro i x hi hout
      obtain ⟨k, rfl⟩ := hback i x hi
      by_contra hnot
      exact hout (hself k x ((hindex k x).2 hi) ((hunmarked _).2 hnot))
    · intro i j r hi hj hr hin hjn
      obtain ⟨k, rfl⟩ := hback i _ hi
      obtain ⟨l, rfl⟩ := hback j _ hj
      rw [hdistinct k l r ((hindex _ _).2 hi) ((hindex _ _).2 hj) hr ((hunmarked _).2 hin) ((hunmarked _).2 hjn)]
  · intro h
    obtain ⟨hself, hdistinct⟩ := h
    refine ⟨fun k x hk hm => ?_, fun j k r hj hk hr hjm hkm => ?_⟩
    · by_contra hout
      exact (hunmarked _).1 hm (hself (1 + k) x ((hindex k x).1 hk) hout)
    · have heq := hdistinct (1 + j) (1 + k) r ((hindex _ _).1 hj) ((hindex _ _).1 hk) hr ((hunmarked _).1 hjm)
        ((hunmarked _).1 hkm)
      omega

/-- `c_reachability_test` decides whether node 1 reaches every node. `c_subcircuit_test` succeeds exactly if `Begin`
reaches every node whose domain excludes itself and no free variable stands for two nodes that it does not reach; else
it fails. -/
theorem cReachabilityTest_cSubcircuitTest_iff (s : Store) (Xs : List FdTerm) (hne : Xs ≠ []) (hX : CircuitVector s Xs) :
    (∃ b, cReachabilityTest s Xs = .ok b ∧
        (b = true ↔ ∀ i, 1 ≤ i → i ≤ (Xs.length : ℤ) → ReflTransGen (Edge s Xs) 1 i)) ∧
      ∀ Begin, 1 ≤ Begin → Begin ≤ (Xs.length : ℤ) →
        ((∃ s', cSubcircuitTest s Begin Xs = .ok s') ∨ cSubcircuitTest s Begin Xs = .error .fail) ∧
        ((∃ s', cSubcircuitTest s Begin Xs = .ok s') ↔
          (∀ i x, vectArg Xs i = some x → i ∉ x.dom s → ReflTransGen (Edge s Xs) Begin i) ∧
            ∀ i j r, vectArg Xs i = some (.dvar r) → vectArg Xs j = some (.dvar r) → (s r).var = .susp →
              ¬ ReflTransGen (Edge s Xs) Begin i → ¬ ReflTransGen (Edge s Xs) Begin j → i = j) := by
  constructor
  · have hlen := List.length_pos_of_ne_nil hne
    have hroot : (1 : ℤ) ≤ 1 ∧ (1 : ℤ) ≤ (Xs.length : ℤ) := by omega
    obtain ⟨st, done, hrun, -, hcount, hdone⟩ := searchFrom_spec true hX hroot
    rw [← hcount]
    cases done with
    | true =>
      refine ⟨true, ?_, iff_of_true rfl (hdone rfl)⟩
      simp only [cReachabilityTest, hrun, bind, Except.bind]
      rfl
    | false =>
      refine ⟨decide (st.count = Xs.length), ?_, decide_eq_true_iff⟩
      simp only [cReachabilityTest, hrun, bind, Except.bind]
      rfl
  · intro Begin h1 hN
    obtain ⟨st, done, hrun, hmarks, -⟩ := searchFrom_spec false hX ⟨h1, hN⟩
    rw [← leftAlone_iff hmarks]
    have hcall : cSubcircuitTest s Begin Xs = bindRest st.sccNodes Xs 1 s := by
      simp only [cSubcircuitTest, hrun, bind, Except.bind]
    rw [hcall]
    rcases bindRest_spec st.sccNodes Xs 1 s hX.inv with ⟨halone, s', hs'⟩ | ⟨halone, hfail⟩
    · exact ⟨.inl ⟨s', hs'⟩, iff_of_true ⟨s', hs'⟩ halone⟩
    · refine ⟨.inr hfail, iff_of_false ?_ halone⟩
      intro h
      obtain ⟨s', hs'⟩ := h
      rw [hfail] at hs'
      contradiction

/-- Node 1 leads to 4 and back; the nodes 2 and 3 are one variable. -/
def sharedVector : List FdTerm := [.int 4, .dvar 0, .dvar 0, .int 1]

theorem sharedVector_circuitVector : CircuitVector (fun _ => auxCreateDomainVar 2 3) sharedVector := by
  refine ⟨fun r _ => auxCreateDomainVar_inv (by decide), fun x hx v hv => ?_⟩
  simp only [sharedVector, List.mem_cons, List.not_mem_nil, or_false] at hx
  rcases hx with rfl | rfl | rfl | rfl
  · rw [mem_singleton.1 hv]
    decide
  · have hle := (Dvar.mem_elems.1 hv).1
    have hbounds : (2 : ℤ) ≤ v ∧ v ≤ 3 := hle
    exact ⟨by omega, by simp only [sharedVector, List.length_cons, List.length_nil]; omega⟩
  · have hle := (Dvar.mem_elems.1 hv).1
    have hbounds : (2 : ℤ) ≤ v ∧ v ≤ 3 := hle
    exact ⟨by omega, by simp only [sharedVector, List.length_cons, List.length_nil]; omega⟩
  · rw [mem_singleton.1 hv]
    decide

theorem cReachabilityTest_cSubcircuitTest_iff_shared :
    ∃ b, cReachabilityTest (fun _ => auxCreateDomainVar 2 3) sharedVector = .ok b ∧
      (b = true ↔ ∀ i, 1 ≤ i → i ≤ (sharedVector.length : ℤ) →
        ReflTransGen (Edge (fun _ => auxCreateDomainVar 2 3) sharedVector) 1 i) :=
  (cReachabilityTest_cSubcircuitTest_iff _ _ (List.cons_ne_nil _ _) sharedVector_circuitVector).1

theorem excluded_sharedVector {i : ℤ} {x : FdTerm} (hx : vectArg sharedVector i = some x)
    (hout : i ∉ x.dom fun _ => auxCreateDomainVar 2 3) : (i = 1 ∧ x = .int 4) ∨ (i = 4 ∧ x = .int 1) := by
  have hmem : ∀ v : ℤ, 2 ≤ v ∧ v ≤ 3 → v ∈ (FdTerm.dvar 0).dom fun _ => auxCreateDomainVar 2 3 :=
    fun v hv => Dvar.mem_elems.2 ⟨hv, rfl⟩
  unfold vectArg at hx
  split at hx
  · obtain ⟨hlt, -⟩ := List.getElem?_eq_some_iff.1 hx
    simp only [sharedVector, List.length_cons, List.length_nil] at hlt
    obtain rfl | rfl | rfl | rfl : i = 1 ∨ i = 2 ∨ i = 3 ∨ i = 4 := by omega
    · exact .inl ⟨rfl, (Option.some.inj hx).symm⟩
    · obtain rfl : FdTerm.dvar 0 = x := Option.some.inj hx
      exact absurd (hmem 2 (by decide)) hout
    · obtain rfl : FdTerm.dvar 0 = x := Option.some.inj hx
      exact absurd (hmem 3 (by decide)) hout
    · exact .inr ⟨rfl, (Option.some.inj hx).symm⟩
  · contradiction

/-- Both unreachable nodes have themselves in their domain, but the variable cannot be bound to both. -/
theorem cSubcircuitTest_shared : ¬ ∀ (s : Store) (Xs : List FdTerm) (Begin : ℤ), Xs ≠ [] → CircuitVector s Xs →
      IsLeast {i | ∃ x, vectArg Xs i = some x ∧ i ∉ x.dom s} Begin →
      ((∃ s', cSubcircuitTest s Begin Xs = .ok s') ↔
        ∀ i x, vectArg Xs i = some x → i ∉ x.dom s → ReflTransGen (Edge s Xs) Begin i) := by
  intro h
  have hleast : IsLeast {i | ∃ x, vectArg sharedVector i = some x ∧ i ∉ x.dom fun _ => auxCreateDomainVar 2 3} 1 := by
    refine ⟨⟨.int 4, rfl, by simp [FdTerm.dom]⟩, ?_⟩
    rintro i ⟨x, hx, hout⟩
    rcases excluded_sharedVector hx hout with ⟨rfl, -⟩ | ⟨rfl, -⟩ <;> decide
  have hiff := h (fun _ => auxCreateDomainVar 2 3) sharedVector 1 (List.cons_ne_nil _ _) sharedVector_circuitVector hleast
  have hfail : (cSubcircuitTest (fun _ => auxCreateDomainVar 2 3) 1 sharedVector).isOk = false := by decide
  obtain ⟨s', hs'⟩ := hiff.2 fun i x hx hout => by
    rcases excluded_sharedVector hx hout with ⟨rfl, -⟩ | ⟨rfl, -⟩
    · exact ReflTransGen.refl
    · exact ReflTransGen.single ⟨.int 4, rfl, mem_singleton_self _⟩
  rw [hs'] at hfail
  contradiction

end

end Picat
