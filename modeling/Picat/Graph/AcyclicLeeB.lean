import Mathlib.Data.Finset.Card
import Picat.Lib.BoolSums
import Picat.Lib.LeafTimes
import Picat.Lib.SimplePath

/-!
# `acyclic_lee_b`: acyclicity by leaf elimination

* `acyclic_of_acyclicLeeB` : then there is no cycle.
-/

namespace Picat.Graph
open Relation PathRanks Function List

variable {V β : Type} [DecidableEq V]

/-- `AMap`: the entries of every vertex, the last first. -/
def adjacency (Es : List (V × β)) : V → List β := 
  Es.foldl (fun (m : V → List β) e => update m e.1 (e.2 :: m e.1)) fun _ => []

theorem mem_adjacency {Es : List (V × β)} {v : V} {x : β} : x ∈ adjacency Es v ↔ (v, x) ∈ Es := by
  have hgen : ∀ (l : List (V × β)) (m : V → List β),
      x ∈ l.foldl (fun (m : V → List β) e => update m e.1 (e.2 :: m e.1)) m v ↔ (v, x) ∈ l ∨ x ∈ m v := by
    intro l
    induction l with
    | nil =>
      intro m
      simp
    | cons e l ih =>
      intro m
      obtain ⟨u, y⟩ := e
      rw [foldl_cons, ih, mem_cons, Prod.mk.injEq]
      by_cases huv : v = u
      · subst huv
        rw [update_self, mem_cons]
        tauto
      · rw [update_of_ne huv]
        tauto
  unfold adjacency
  rw [hgen]
  simp

theorem foldl_put {κ α γ : Type} [DecidableEq κ] {f : α → κ} {g : α → γ} {P : γ → Prop} {k : κ} {l : List α}
    (hval : ∀ x ∈ l, f x = k → P (g x)) {m : κ → γ} (h : k ∈ l.map f ∨ P (m k)) :
    P (l.foldl (fun (m : κ → γ) x => update m (f x) (g x)) m k) := by
  induction l generalizing m with
  | nil => exact h.resolve_left not_mem_nil
  | cons x l ih =>
    rw [foldl_cons]
    apply ih fun y hy => hval y (mem_cons_of_mem x hy)
    by_cases hk : k = f x
    · apply Or.inr
      rw [hk, update_self]
      exact hval x mem_cons_self hk.symm
    · rw [update_of_ne hk]
      apply h.imp_left
      intro hmem
      rw [map_cons, mem_cons] at hmem
      exact hmem.resolve_left hk

/-! ## The base graph -/

section
variable (aMap transAMap : V → List V)

/-- All neighbours of `v` in one of the two maps are in `RemSet`. -/
def acyclicLeeLeaf (v : V) (remSet : Finset V) : Bool :=
  (aMap v).all (fun u => u ∈ remSet) || (transAMap v).all (fun u => u ∈ remSet)

/-- One pass over the vertices: those that stay, `RemSet` and `Flag`. -/
def eliminateLeavesPass : List V → Finset V → List V × Finset V × Bool
  | [], remSet => ([], remSet, false)
  | v :: vs, remSet =>
    if acyclicLeeLeaf aMap transAMap v remSet then
      let r := eliminateLeavesPass vs (insert v remSet)
      (r.1, r.2.1, true)
    else
      let r := eliminateLeavesPass vs remSet
      (v :: r.1, r.2)

theorem length_eliminateLeavesPass (vs : List V) (remSet : Finset V) :
    (eliminateLeavesPass aMap transAMap vs remSet).1.length ≤ vs.length ∧
      ((eliminateLeavesPass aMap transAMap vs remSet).2.2 = true →
        (eliminateLeavesPass aMap transAMap vs remSet).1.length < vs.length) := by
  induction vs generalizing remSet with
  | nil => exact ⟨le_refl _, fun h => absurd h Bool.false_ne_true⟩
  | cons v vs ih =>
    unfold eliminateLeavesPass
    split_ifs
    · obtain ⟨hle, -⟩ := ih (insert v remSet)
      exact ⟨Nat.le_succ_of_le hle, fun _ => Nat.lt_succ_of_le hle⟩
    · obtain ⟨hle, hlt⟩ := ih remSet
      exact ⟨Nat.succ_le_succ hle, fun h => Nat.succ_lt_succ (hlt h)⟩

/-- `RemSet`, when no leaf is left. -/
def eliminateLeaves (vs : List V) (remSet : Finset V) : Finset V :=
  if (eliminateLeavesPass aMap transAMap vs remSet).2.2 = true then
    eliminateLeaves (eliminateLeavesPass aMap transAMap vs remSet).1 (eliminateLeavesPass aMap transAMap vs remSet).2.1
  else (eliminateLeavesPass aMap transAMap vs remSet).2.1
termination_by vs.length
decreasing_by exact (length_eliminateLeavesPass aMap transAMap vs remSet).2 (by assumption)

end

/-- `TransAMap`, which takes the neighbours before the last one from `AMap`. -/
def transAdjacency (Es : List (V × V)) : V → List V :=
  Es.foldl (fun (m : V → List V) e => update m e.2 (e.1 :: adjacency Es e.2)) fun _ => []

/-- `N`, `RemSet` and `MaxT`. -/
def baseGraphInfo (Vs : List V) (Es : List (V × V)) : ℕ × Finset V × ℤ :=
  let remSet := eliminateLeaves (adjacency Es) (transAdjacency Es) Vs ∅
  (Vs.length, remSet, (Vs.length : ℤ) - remSet.card - 1)

/-- `VMap.put(V,B)` and `EMap.put((V1,V2),B)` for a list of entries. -/
def putValues {κ : Type} [DecidableEq κ] (l : List (κ × Bool)) : κ → Option Bool :=
  l.foldl (fun (m : κ → Option Bool) p => update m p.1 (some p.2)) fun _ => none

def acyclicLeeBConstrainNeibs (tMap : V → ℤ) (v : V) (neibs : List (V × Bool)) : Prop :=
  ∀ p ∈ neibs, p.2 = true → tMap p.1 < tMap v

section
variable (lt : V → V → Bool) (Vs : List (V × Bool)) (Es : List (V × V × Bool)) (time : V → ℤ)

/-- The values are those of the Booleans of the vertices and edges; `lt` is the standard order. -/
structure acyclicLeeB : Prop where
  dom : ∀ v ∈ Vs.map Prod.fst, 0 ≤ time v ∧
    time v ≤ (baseGraphInfo (Vs.map Prod.fst) (Es.map fun e => (e.1, e.2.1))).2.2
  ends : ∀ v1 v2 b, (v1, v2, b) ∈ Es → ∃ b1 b2, putValues Vs v1 = some b1 ∧ putValues Vs v2 = some b2 ∧
    (b = true → b1 = true) ∧ (b = true → b2 = true)
  removed : ∀ v ∈ Vs.map Prod.fst, v ∈ (baseGraphInfo (Vs.map Prod.fst) (Es.map fun e => (e.1, e.2.1))).2.1 → time v = 0
  vertices : ∀ v b, (v, b) ∈ Vs → v ∉ (baseGraphInfo (Vs.map Prod.fst) (Es.map fun e => (e.1, e.2.1))).2.1 →
    (¬ 1 ≤ (adjacency Es v).countP (fun p => p.2) → time v = 0) ∧ (b = false → time v = 0) ∧
      acyclicLeeBConstrainNeibs time v (adjacency Es v)
  noTwo : ∀ v1 v2 b12, (v1, v2, b12) ∈ Es → ∀ b21, putValues (Es.map fun e => ((e.1, e.2.1), e.2.2)) (v2, v1) = some b21 →
    lt v1 v2 = true → b12 = false ∨ b21 = false
  noThree : ∀ v1 v2 b12, (v1, v2, b12) ∈ Es → ∀ p ∈ adjacency Es v2, p.1 ≠ v1 →
    ∀ b31, putValues (Es.map fun e => ((e.1, e.2.1), e.2.2)) (p.1, v1) = some b31 →
      b12 = false ∨ p.2 = false ∨ b31 = false

end

/-! ## `RemSet` -/

section
variable {Es : List (V × V)}

theorem adjacency_subset {u v : V} (h : (u, v) ∈ Es) : ∀ y ∈ adjacency Es v, y ∈ transAdjacency Es v := by
  apply foldl_put (P := fun (l : List V) => ∀ y ∈ adjacency Es v, y ∈ l) (f := Prod.snd)
    (g := fun (e : V × V) => e.1 :: adjacency Es e.2)
  · rintro e - rfl y hy
    exact mem_cons_of_mem e.1 hy
  · exact .inl (mem_map.2 ⟨(u, v), h, rfl⟩)

theorem out_or_in_of_leaf {v : V} {remSet : Finset V}
    (h : acyclicLeeLeaf (adjacency Es) (transAdjacency Es) v remSet = true) :
    (∀ u, (v, u) ∈ Es → u ∈ remSet) ∨ ∀ u, (u, v) ∉ Es := by
  unfold acyclicLeeLeaf at h
  rw [Bool.or_eq_true, all_eq_true, all_eq_true] at h
  rcases h with hout | hin
  · apply Or.inl
    intro u hu
    exact of_decide_eq_true (hout u (mem_adjacency.2 hu))
  · by_cases hno : ∃ u, (u, v) ∈ Es
    · obtain ⟨w, hw⟩ := hno
      apply Or.inl
      intro u hu
      exact of_decide_eq_true (hin u (adjacency_subset hw u (mem_adjacency.2 hu)))
    · exact .inr fun u hu => hno ⟨u, hu⟩

def OffCycles (Es : List (V × V)) (s : Finset V) : Prop := ∀ v ∈ s, ¬ TransGen (fun a b => (a, b) ∈ Es) v v

theorem OffCycles.insert {v : V} {remSet : Finset V} (h : OffCycles Es remSet)
    (hleaf : acyclicLeeLeaf (adjacency Es) (transAdjacency Es) v remSet = true) :
    OffCycles Es (insert v remSet) := by
  intro x hx hcycle
  rcases Finset.mem_insert.1 hx with rfl | hx
  · rcases out_or_in_of_leaf hleaf with hout | hin
    · -- the next vertex is on the cycle too
      obtain ⟨u, hxu, hux⟩ := TransGen.head'_iff.1 hcycle
      exact h u (hout u hxu) (TransGen.tail' hux hxu)
    · obtain ⟨u, -, hux⟩ := TransGen.tail'_iff.1 hcycle
      exact hin u hux
  · exact h x hx hcycle

section
variable {remSet : Finset V} (h : OffCycles Es remSet) (vs : List V)
include h vs

theorem OffCycles.pass : OffCycles Es (eliminateLeavesPass (adjacency Es) (transAdjacency Es) vs remSet).2.1 := by
  induction vs generalizing remSet with
  | nil => exact h
  | cons v vs ih =>
    unfold eliminateLeavesPass
    split_ifs with hleaf
    · exact ih (h.insert hleaf)
    · exact ih h

theorem OffCycles.eliminateLeaves : OffCycles Es (eliminateLeaves (adjacency Es) (transAdjacency Es) vs remSet) := by
  induction vs, remSet using eliminateLeaves.induct (adjacency Es) (transAdjacency Es) with
  | case1 vs remSet hflag ih =>
    unfold Graph.eliminateLeaves
    rw [if_pos hflag]
    exact ih (h.pass vs)
  | case2 vs remSet hflag =>
    unfold Graph.eliminateLeaves
    rw [if_neg hflag]
    exact h.pass vs

end

theorem not_cycle_of_remSet (Vs : List V) {v : V} (h : v ∈ (baseGraphInfo Vs Es).2.1) :
    ¬ TransGen (fun a b => (a, b) ∈ Es) v v :=
  OffCycles.eliminateLeaves (fun v hv => absurd hv (Finset.notMem_empty v)) Vs v h

end

section
variable {κ : Type} [DecidableEq κ] {l : List (κ × Bool)}

theorem mem_of_putValues {k : κ} {b : Bool} (h : putValues l k = some b) : (k, b) ∈ l := by
  revert h
  apply foldl_put (P := fun (o : Option Bool) => o = some b → (k, b) ∈ l) (f := Prod.fst)
    (g := fun (p : κ × Bool) => some p.2)
  · rintro ⟨_, b'⟩ hmem rfl heq
    rw [← Option.some.inj heq]
    exact hmem
  · exact .inr fun heq => absurd heq (Option.some_ne_none b).symm

theorem putValues_eq (hnodup : (l.map Prod.fst).Nodup) {k : κ} {b : Bool} (h : (k, b) ∈ l) : putValues l k = some b := by
  apply foldl_put (P := fun (o : Option Bool) => o = some b) (f := Prod.fst) (g := fun (p : κ × Bool) => some p.2)
  · intro p hmem heq
    have hp : p = (k, b) := inj_on_of_nodup_map hnodup hmem h heq
    rw [hp]
  · exact .inl (mem_map.2 ⟨(k, b), h, rfl⟩)

end

/-! ## The times -/

section
variable {lt : V → V → Bool} {Vs : List (V × Bool)} {Es : List (V × V × Bool)} {time : V → ℤ}

def InEdgeB (Es : List (V × V × Bool)) (u v : V) : Prop := (u, v, true) ∈ Es

/-- `RemSet` and the number of the other vertices. -/
def remSetB (Vs : List (V × Bool)) (Es : List (V × V × Bool)) : Finset V :=
  (baseGraphInfo (Vs.map Prod.fst) (Es.map fun e => (e.1, e.2.1))).2.1

theorem maxT_baseGraphInfo : (baseGraphInfo (Vs.map Prod.fst) (Es.map fun e => (e.1, e.2.1))).2.2 =
    (Vs.length : ℤ) - (remSetB Vs Es).card - 1 := by
  unfold baseGraphInfo remSetB
  rw [length_map]
  rfl

/-- What `acyclic_lee_b` asks of the edges that are in: their ends are in, and no path with one arc for each vertex
outside `RemSet` leaves only such vertices. -/
structure LeeBFits (Vs : List (V × Bool)) (Es : List (V × V × Bool)) : Prop where
  ends : ∀ u v, InEdgeB Es u v → (u, true) ∈ Vs ∧ (v, true) ∈ Vs
  short : ∀ v ∈ Vs.map Prod.fst, ¬ Path (InEdgeB Es) (remSetB Vs Es) (Vs.length - (remSetB Vs Es).card) v

theorem one_le_countP {u v : V} (h : InEdgeB Es v u) : 1 ≤ (adjacency Es v).countP (fun p => p.2) :=
  BoolSums.one_le_countP_iff.2 ⟨(u, true), mem_adjacency.2 h, rfl⟩

theorem not_cycle_of_remSetB {v : V} (h : v ∈ remSetB Vs Es) : ¬ TransGen (InEdgeB Es) v v := by
  intro hcycle
  apply not_cycle_of_remSet _ h
  exact TransGen.mono (fun a b hab => mem_map.2 ⟨_, hab, rfl⟩) v v hcycle

theorem LeeBFits.acyclic (h : LeeBFits Vs Es) (v : V) : ¬ TransGen (InEdgeB Es) v v := by
  refine acyclic_of_no_path (fun u (hu : u ∈ remSetB Vs Es) => not_cycle_of_remSetB hu)
    (m := Vs.length - (remSetB Vs Es).card) ?_ v
  intro u hu
  obtain ⟨w, huw, -⟩ := TransGen.head'_iff.1 hu
  exact h.short u (mem_map.2 ⟨_, (h.ends u w huw).1, rfl⟩)

omit [DecidableEq V] in
theorem vertex_eq (hnodup : (Vs.map Prod.fst).Nodup) {v : V} {b b' : Bool} (h : (v, b) ∈ Vs) (h' : (v, b') ∈ Vs) :
    b = b' := congrArg Prod.snd (inj_on_of_nodup_map hnodup h h' rfl)

namespace acyclicLeeB

section
variable (h : acyclicLeeB lt Vs Es time)
include h

theorem ends_in {u v : V} (huv : InEdgeB Es u v) : (u, true) ∈ Vs ∧ (v, true) ∈ Vs := by
  obtain ⟨b1, b2, h1, h2, hb1, hb2⟩ := h.ends u v true huv
  rw [hb1 rfl] at h1
  rw [hb2 rfl] at h2
  exact ⟨mem_of_putValues h1, mem_of_putValues h2⟩

theorem earlier {u v : V} (hv : v ∉ remSetB Vs Es) (hvu : InEdgeB Es v u) : time u < time v := by
  obtain ⟨-, -, hneibs⟩ := h.vertices v true (h.ends_in hvu).1 hv
  exact hneibs (u, true) (mem_adjacency.2 hvu) rfl

theorem fits : LeeBFits Vs Es := by
  refine ⟨fun u v huv => h.ends_in huv, ?_⟩
  intro v hv hpath
  have hmem : ∀ u w, InEdgeB Es u w → u ∈ Vs.map Prod.fst ∧ w ∈ Vs.map Prod.fst := fun u w huw =>
    ⟨mem_map.2 ⟨_, (h.ends_in huw).1, rfl⟩, mem_map.2 ⟨_, (h.ends_in huw).2, rfl⟩⟩
  -- the times as natural numbers
  have hfalls : Falls (InEdgeB Es) (remSetB Vs Es) fun v => (time v).toNat := by
    intro u w hu huw
    have hlt := h.earlier (fun hmem => hu (Finset.mem_coe.2 hmem)) huw
    have h0 := (h.dom w (hmem u w huw).2).1
    dsimp only
    omega
  have hle := hfalls.le_of_path hpath
  obtain ⟨h0, hmax⟩ := h.dom v hv
  rw [maxT_baseGraphInfo] at hmax
  omega

end

end acyclicLeeB

theorem LeeBFits.solution (h : LeeBFits Vs Es) (lt : V → V → Bool) (hnodup : (Vs.map Prod.fst).Nodup)
    (hends : ∀ u v b, (u, v, b) ∈ Es → u ∈ Vs.map Prod.fst ∧ v ∈ Vs.map Prod.fst) :
    acyclicLeeB lt Vs Es fun v =>
      (rank (InEdgeB Es) (remSetB Vs Es) (Vs.length - (remSetB Vs Es).card - 1) v : ℤ) := by
  have hvalue : ∀ {u v : V}, putValues (Es.map fun e => ((e.1, e.2.1), e.2.2)) (u, v) = some true → InEdgeB Es u v := by
    intro u v hput
    obtain ⟨⟨u', v', b⟩, hmem, heq⟩ := mem_map.1 (mem_of_putValues hput)
    simp only [Prod.mk.injEq] at heq
    obtain ⟨⟨rfl, rfl⟩, rfl⟩ := heq
    exact hmem
  -- with a vertex there are vertices outside `RemSet`
  have hpos : ∀ v ∈ Vs.map Prod.fst, 0 < Vs.length - (remSetB Vs Es).card := by
    intro v hv
    by_contra hzero
    have hshort := h.short v hv
    rw [Nat.eq_zero_of_not_pos hzero] at hshort
    exact hshort trivial
  have hpath : ∀ v ∈ Vs.map Prod.fst, ∀ u, ¬ Path (InEdgeB Es) (remSetB Vs Es)
      (Vs.length - (remSetB Vs Es).card - 1 + 1) u := by
    intro v hv u hpath
    have hu : u ∈ Vs.map Prod.fst := by
      obtain ⟨-, w, huw, -⟩ := id hpath
      exact mem_map.2 ⟨_, (h.ends u w huw).1, rfl⟩
    rw [Nat.sub_add_cancel (hpos v hv)] at hpath
    exact h.short u hu hpath
  constructor
  · intro v hv
    rw [maxT_baseGraphInfo]
    have hle := @rank_le _ (InEdgeB Es) (remSetB Vs Es : Set V) (Vs.length - (remSetB Vs Es).card - 1) v
    have := hpos v hv
    omega
  · intro v1 v2 b hmem
    obtain ⟨⟨⟨v1, b1⟩, hb1, rfl⟩, ⟨v2, b2⟩, hb2, rfl⟩ := (hends v1 v2 b hmem).imp mem_map.1 mem_map.1
    dsimp only at hmem ⊢
    refine ⟨b1, b2, putValues_eq hnodup hb1, putValues_eq hnodup hb2, ?_, ?_⟩
    · intro hb
      rw [hb] at hmem
      exact vertex_eq hnodup hb1 (h.ends v1 v2 hmem).1
    · intro hb
      rw [hb] at hmem
      exact vertex_eq hnodup hb2 (h.ends v1 v2 hmem).2
  · intro v _ hrem
    exact congrArg Nat.cast (rank_eq_zero (.inl hrem))
  · intro v b hv hrem
    refine ⟨?_, ?_, ?_⟩
    · intro hsum
      refine congrArg Nat.cast (rank_eq_zero (.inr fun u hvu => hsum (one_le_countP hvu)))
    · intro hb
      refine congrArg Nat.cast (rank_eq_zero (.inr fun u hvu => ?_))
      rw [vertex_eq hnodup hv (h.ends v u hvu).1] at hb
      exact Bool.false_ne_true hb.symm
    · rintro ⟨u, b'⟩ hu (rfl : b' = true)
      exact Int.ofNat_lt.2 (falls_rank (hpath v (mem_map.2 ⟨_, hv, rfl⟩)) v u hrem (mem_adjacency.1 hu))
  · intro v1 v2 b12 h12 b21 h21 _
    by_contra hno
    rw [not_or, Bool.not_eq_false, Bool.not_eq_false] at hno
    rw [hno.1] at h12
    rw [hno.2] at h21
    exact h.acyclic v1 ((TransGen.single h12).tail (hvalue h21))
  · rintro v1 v2 b12 h12 ⟨v3, b23⟩ h23 - b31 h31
    dsimp only at h31 ⊢
    by_contra hno
    rw [not_or, not_or, Bool.not_eq_false, Bool.not_eq_false, Bool.not_eq_false] at hno
    rw [hno.1] at h12
    rw [hno.2.1] at h23
    rw [hno.2.2] at h31
    exact h.acyclic v1 (((TransGen.single h12).tail (mem_adjacency.1 h23)).tail (hvalue h31))

theorem acyclicLeeB_iff (lt : V → V → Bool) (hnodup : (Vs.map Prod.fst).Nodup)
    (hends : ∀ u v b, (u, v, b) ∈ Es → u ∈ Vs.map Prod.fst ∧ v ∈ Vs.map Prod.fst) :
    (∃ time, acyclicLeeB lt Vs Es time) ↔ LeeBFits Vs Es := by
  constructor
  · intro hp
    obtain ⟨time, h⟩ := hp
    exact h.fits
  · intro h
    exact ⟨_, h.solution lt hnodup hends⟩

end

end Picat.Graph

/-! # `acyclic_lee_b`: when the times suffice -/

namespace Picat.Graph
open Relation PathRanks Paths List

variable {V : Type} [DecidableEq V]

structure InDagB (VBs : List (V × Bool)) (EBs : List (V × V × Bool)) : Prop where
  ends : ∀ u v, InEdgeB EBs u v → (u, true) ∈ VBs ∧ (v, true) ∈ VBs
  acyclic : ∀ v, ¬ TransGen (InEdgeB EBs) v v

/-- The path visits every vertex outside `RemSet` once. With no such vertex it is that of a vertex in `RemSet` alone. -/
def LongPath (Vs : List V) (Es : List (V × V)) (R : V → V → Prop) : Prop :=
  ∃ l r, l.Perm (Vs.filter fun v => v ∉ (baseGraphInfo Vs Es).2.1) ∧ r ∈ (baseGraphInfo Vs Es).2.1 ∧
    (l ++ [r]).IsChain R

/-! ## `RemSet` -/

section
variable {aMap transAMap : V → List V}

theorem eliminateLeavesPass_subset (vs : List V) (remSet : Finset V) :
    (∀ v ∈ (eliminateLeavesPass aMap transAMap vs remSet).1, v ∈ vs) ∧
      ∀ v ∈ (eliminateLeavesPass aMap transAMap vs remSet).2.1, v ∈ remSet ∨ v ∈ vs := by
  induction vs generalizing remSet with
  | nil => exact ⟨fun v hv => hv, fun v hv => .inl hv⟩
  | cons w vs ih =>
    unfold eliminateLeavesPass
    split_ifs
    · obtain ⟨hleft, hrem⟩ := ih (insert w remSet)
      refine ⟨fun v hv => mem_cons_of_mem w (hleft v hv), fun v hv => ?_⟩
      rw [mem_cons, ← or_assoc, or_comm (b := v = w), ← Finset.mem_insert]
      exact hrem v hv
    · obtain ⟨hleft, hrem⟩ := ih remSet
      constructor
      · intro v hv
        exact mem_cons.2 ((mem_cons.1 hv).imp_right (hleft v))
      · intro v hv
        exact (hrem v hv).imp_right (mem_cons_of_mem w)

theorem eliminateLeaves_subset (vs : List V) (remSet : Finset V) :
    ∀ v ∈ eliminateLeaves aMap transAMap vs remSet, v ∈ remSet ∨ v ∈ vs := by
  induction vs, remSet using eliminateLeaves.induct aMap transAMap with
  | case1 vs remSet hflag ih =>
    intro v hv
    unfold eliminateLeaves at hv
    rw [if_pos hflag] at hv
    obtain ⟨hleft, hrem⟩ := @eliminateLeavesPass_subset _ _ aMap transAMap vs remSet
    rcases ih v hv with hv | hv
    · exact hrem v hv
    · exact .inr (hleft v hv)
  | case2 vs remSet hflag =>
    intro v hv
    unfold eliminateLeaves at hv
    rw [if_neg hflag] at hv
    exact (eliminateLeavesPass_subset vs remSet).2 v hv

end

section
variable {Vs : List V} {Es : List (V × V)}

theorem mem_of_remSet {v : V} (h : v ∈ (baseGraphInfo Vs Es).2.1) : v ∈ Vs :=
  (eliminateLeaves_subset Vs ∅ v h).resolve_left (Finset.notMem_empty v)

theorem length_outside (hnodup : Vs.Nodup) : (Vs.filter fun v => v ∉ (baseGraphInfo Vs Es).2.1).length =
    Vs.length - (baseGraphInfo Vs Es).2.1.card := by
  have hsub : (baseGraphInfo Vs Es).2.1 ⊆ Vs.toFinset := fun v hv => mem_toFinset.2 (mem_of_remSet hv)
  rw [← toFinset_card_of_nodup (hnodup.filter _), ← toFinset_card_of_nodup hnodup, ← Finset.card_sdiff_of_subset hsub]
  congr 1
  ext v
  simp

end

/-! ## Assignments -/

section
variable {VBs : List (V × Bool)} {EBs : List (V × V × Bool)}

theorem InDagB.longPath_iff (h : InDagB VBs EBs) (hnodup : (VBs.map Prod.fst).Nodup) :
    (∃ v ∈ VBs.map Prod.fst, Path (InEdgeB EBs) (remSetB VBs EBs) (VBs.length - (remSetB VBs EBs).card) v) ↔
      LongPath (VBs.map Prod.fst) (EBs.map fun e => (e.1, e.2.1)) (InEdgeB EBs) := by
  have hlen := @length_outside _ _ _ (EBs.map fun e => (e.1, e.2.1)) hnodup
  rw [length_map] at hlen
  have hmem : ∀ u w, InEdgeB EBs u w → u ∈ VBs.map Prod.fst ∧ w ∈ VBs.map Prod.fst := fun u w huw =>
    ⟨mem_map.2 ⟨_, (h.ends u w huw).1, rfl⟩, mem_map.2 ⟨_, (h.ends u w huw).2, rfl⟩⟩
  constructor
  · intro hpath
    obtain ⟨v, hv, hpath⟩ := hpath
    obtain ⟨l, r, hl, hhead, hstop, hchain⟩ := exists_isChain_of_path hpath
    have hdistinct := nodup_of_isChain h.acyclic hchain
    obtain ⟨hldistinct, -, hdisjoint⟩ := nodup_append.1 hdistinct
    have hall := forall_of_isChain (P := fun x => x ∈ VBs.map Prod.fst) (fun u w huw => (hmem u w huw).2) hchain hhead hv
    have hsub : l ⊆ (VBs.map Prod.fst).filter fun v => v ∉ remSetB VBs EBs := fun x hx =>
      mem_filter.2 ⟨hall x (mem_append_left [r] hx), decide_eq_true (hstop x hx)⟩
    have hperm := (subperm_of_subset hldistinct hsub).perm_of_length_le (hlen.trans hl.symm).le
    refine ⟨l, r, hperm, ?_, hchain⟩
    by_contra hr
    have hrmem : r ∈ (VBs.map Prod.fst).filter fun v => v ∉ remSetB VBs EBs :=
      mem_filter.2 ⟨hall r (mem_append_right l (mem_singleton_self r)), decide_eq_true hr⟩
    exact hdisjoint r (hperm.mem_iff.2 hrmem) r (mem_singleton_self r) rfl
  · intro hlong
    obtain ⟨l, r, hperm, hr, hchain⟩ := hlong
    have hall : ∀ v ∈ l ++ [r], v ∈ VBs.map Prod.fst := by
      intro v hv
      rcases mem_append.1 hv with hv | hv
      · exact (mem_filter.1 (hperm.mem_iff.1 hv)).1
      · rw [mem_singleton.1 hv]
        exact mem_of_remSet hr
    have hne : l ++ [r] ≠ [] := append_ne_nil_of_right_ne_nil l (cons_ne_nil r [])
    refine ⟨(l ++ [r]).head hne, hall _ (head_mem hne), ?_⟩
    rw [show VBs.length - (remSetB VBs EBs).card = l.length from (hperm.length_eq.trans hlen).symm]
    apply path_of_isChain _ hchain (List.head?_eq_some_head hne)
    intro x hx
    exact of_decide_eq_true (mem_filter.1 (hperm.mem_iff.1 hx)).2

theorem LeeBFits.inDagB (h : LeeBFits VBs EBs) : InDagB VBs EBs := ⟨h.ends, h.acyclic⟩

theorem leeBFits_iff (hnodup : (VBs.map Prod.fst).Nodup) : LeeBFits VBs EBs ↔
    InDagB VBs EBs ∧ ¬ LongPath (VBs.map Prod.fst) (EBs.map fun e => (e.1, e.2.1)) (InEdgeB EBs) := by
  constructor
  · intro h
    refine ⟨h.inDagB, fun hlong => ?_⟩
    obtain ⟨v, hv, hpath⟩ := (h.inDagB.longPath_iff hnodup).2 hlong
    exact h.short v hv hpath
  · intro ⟨h, hlong⟩
    exact ⟨h.ends, fun v hv hpath => hlong ((h.longPath_iff hnodup).1 ⟨v, hv, hpath⟩)⟩

theorem acyclicLeeB_iff_inDagB (lt : V → V → Bool) (hnodup : (VBs.map Prod.fst).Nodup)
    (hends : ∀ u v b, (u, v, b) ∈ EBs → u ∈ VBs.map Prod.fst ∧ v ∈ VBs.map Prod.fst) :
    ((∃ time, acyclicLeeB lt VBs EBs time) ↔ InDagB VBs EBs) ↔
      (InDagB VBs EBs → ¬ LongPath (VBs.map Prod.fst) (EBs.map fun e => (e.1, e.2.1)) (InEdgeB EBs)) := by
  rw [acyclicLeeB_iff lt hnodup hends, leeBFits_iff hnodup]
  exact and_iff_left_iff_imp

end

/-! ## Graphs -/

section
variable {Vs : List V} {Es : List (V × V)}

theorem exists_longPath (hnodup : Vs.Nodup) (hends : ∀ u v, (u, v) ∈ Es → u ∈ Vs ∧ v ∈ Vs)
    (h : LongPath Vs Es fun u v => (u, v) ∈ Es) :
    ∃ VBs EBs, VBs.map Prod.fst = Vs ∧ EBs.map (fun e => (e.1, e.2.1)) = Es ∧ InDagB VBs EBs ∧
      LongPath Vs Es (InEdgeB EBs) := by
  classical
  obtain ⟨l, r, hperm, hr, hchain⟩ := h
  have hdistinct : (l ++ [r]).Nodup := by
    apply (hperm.nodup_iff.2 (hnodup.filter _)).append (List.nodup_singleton r)
    intro x hx hxr
    rw [List.mem_singleton.1 hxr] at hx
    exact of_decide_eq_true (List.mem_filter.1 (hperm.mem_iff.1 hx)).2 hr
  have hedge : ∀ u v, InEdgeB (Es.map fun e => (e.1, e.2, decide (Next (l ++ [r]) e.1 e.2))) u v ↔
      (u, v) ∈ Es ∧ Next (l ++ [r]) u v := by
    intro u v
    unfold InEdgeB
    rw [List.mem_map]
    constructor
    · intro hmem
      obtain ⟨⟨a, b⟩, hab, heq⟩ := hmem
      simp only [Prod.mk.injEq, decide_eq_true_eq] at heq
      obtain ⟨rfl, rfl, hnext⟩ := heq
      exact ⟨hab, hnext⟩
    · intro ⟨hmem, hnext⟩
      exact ⟨(u, v), hmem, by rw [decide_eq_true hnext]⟩
  refine ⟨Vs.map fun v => (v, true), Es.map fun e => (e.1, e.2, decide (Next (l ++ [r]) e.1 e.2)), ?_, ?_, ⟨?_, ?_⟩, ?_⟩
  · rw [List.map_map]
    exact List.map_id Vs
  · rw [List.map_map]
    exact List.map_id Es
  · intro u v huv
    obtain ⟨hu, hv⟩ := hends u v ((hedge u v).1 huv).1
    exact ⟨List.mem_map.2 ⟨u, hu, rfl⟩, List.mem_map.2 ⟨v, hv, rfl⟩⟩
  · -- along the path the position grows
    have hgrow : ∀ u v, TransGen (InEdgeB (Es.map fun e => (e.1, e.2, decide (Next (l ++ [r]) e.1 e.2)))) u v →
        (l ++ [r]).idxOf u < (l ++ [r]).idxOf v := by
      intro u v huv
      induction huv with
      | single h =>
        rw [idxOf_next hdistinct ((hedge _ _).1 h).2]
        exact Nat.lt_succ_self _
      | tail _ h ih =>
        rw [idxOf_next hdistinct ((hedge _ _).1 h).2]
        exact ih.trans (Nat.lt_succ_self _)
    exact fun v hv => lt_irrefl _ (hgrow v v hv)
  · refine ⟨l, r, hperm, hr, ?_⟩
    rw [List.isChain_iff_getElem] at hchain ⊢
    intro i hi
    apply (hedge _ _).2
    exact ⟨hchain i hi, i, List.getElem?_eq_getElem _, List.getElem?_eq_getElem hi⟩

/-- For all assignments of the Booleans of the vertices and edges. -/
theorem acyclicLeeB_meets_iff (lt : V → V → Bool) (hnodup : Vs.Nodup) (hends : ∀ u v, (u, v) ∈ Es → u ∈ Vs ∧ v ∈ Vs) :
    ((∀ VBs EBs, VBs.map Prod.fst = Vs → EBs.map (fun e => (e.1, e.2.1)) = Es →
      ((∃ time, acyclicLeeB lt VBs EBs time) ↔ InDagB VBs EBs)) ↔ ¬ LongPath Vs Es fun u v => (u, v) ∈ Es) ∧
    ∀ VBs EBs, VBs.map Prod.fst = Vs → EBs.map (fun e => (e.1, e.2.1)) = Es →
      (((∃ time, acyclicLeeB lt VBs EBs time) ↔ InDagB VBs EBs) ↔
        (InDagB VBs EBs → ¬ LongPath Vs Es (InEdgeB EBs))) := by
  have heach : ∀ VBs EBs, VBs.map Prod.fst = Vs → EBs.map (fun e => (e.1, e.2.1)) = Es →
      (((∃ time, acyclicLeeB lt VBs EBs time) ↔ InDagB VBs EBs) ↔
        (InDagB VBs EBs → ¬ LongPath Vs Es (InEdgeB EBs))) := by
    rintro VBs EBs rfl rfl
    apply acyclicLeeB_iff_inDagB lt hnodup
    intro u v b hmem
    exact hends u v (mem_map.2 ⟨_, hmem, rfl⟩)
  refine ⟨?_, heach⟩
  constructor
  · intro hall hlong
    obtain ⟨VBs, EBs, hVs, hEs, hdag, hlong⟩ := exists_longPath hnodup hends hlong
    exact (heach VBs EBs hVs hEs).1 (hall VBs EBs hVs hEs) hdag hlong
  · intro hno VBs EBs hVs hEs
    apply (heach VBs EBs hVs hEs).2
    rintro - ⟨l, r, hperm, hr, hchain⟩
    refine hno ⟨l, r, hperm, hr, hchain.imp fun u v huv => ?_⟩
    rw [← hEs]
    exact mem_map.2 ⟨_, huv, rfl⟩

end

theorem baseGraphInfo_edge : baseGraphInfo [0, 1] [((0 : ℕ), 1)] = (2, {0, 1}, -1) := by
  have hpass : eliminateLeavesPass (adjacency [((0 : ℕ), 1)]) (transAdjacency [((0 : ℕ), 1)]) [0, 1] ∅ =
      ([], {0, 1}, true) := by decide
  have hrem : eliminateLeaves (adjacency [((0 : ℕ), 1)]) (transAdjacency [((0 : ℕ), 1)]) [0, 1] ∅ = {0, 1} := by
    unfold eliminateLeaves
    rw [hpass]
    unfold eliminateLeaves
    rfl
  unfold baseGraphInfo
  rw [hrem]
  rfl

theorem acyclicLeeB_meets_iff_edge : ¬ ∀ VBs EBs, VBs.map Prod.fst = [0, 1] → EBs.map (fun e => (e.1, e.2.1)) = [(0, 1)] →
    ((∃ time, acyclicLeeB (fun u v : ℕ => decide (u < v)) VBs EBs time) ↔ InDagB VBs EBs) := by
  intro h
  have hends : ∀ u v, (u, v) ∈ [((0 : ℕ), 1)] → u ∈ [0, 1] ∧ v ∈ [0, 1] := by
    intro u v huv
    obtain ⟨rfl, rfl⟩ := Prod.mk.inj (mem_singleton.1 huv)
    decide
  apply (acyclicLeeB_meets_iff (fun u v : ℕ => decide (u < v)) (by decide) hends).1.1 h
  refine ⟨[], 0, ?_, ?_, isChain_singleton 0⟩
  · rw [baseGraphInfo_edge]
    decide
  · rw [baseGraphInfo_edge]
    decide

/-- Two vertices that are in, and no edge is in: all times would be 0, but there are none. -/
theorem acyclicLeeB_no_times : ¬ ((∃ time, acyclicLeeB (fun u v : ℕ => decide (u < v)) [(0, true), (1, true)] [(0, 1, false)]
    time) ↔ InDagB [(0, true), (1, true)] [(0, 1, false)]) := by
  intro h
  have hdag : InDagB [((0 : ℕ), true), (1, true)] [(0, 1, false)] := by
    have hno : ∀ u v : ℕ, ¬ InEdgeB [(0, 1, false)] u v := by
      intro u v huv
      have heq := mem_singleton.1 huv
      simp only [Prod.mk.injEq] at heq
      exact Bool.false_ne_true heq.2.2.symm
    refine ⟨fun u v huv => absurd huv (hno u v), fun v hv => ?_⟩
    obtain ⟨u, hvu, -⟩ := TransGen.head'_iff.1 hv
    exact hno v u hvu
  obtain ⟨time, htime⟩ := h.2 hdag
  obtain ⟨h0, h1⟩ := htime.dom 0 (by decide)
  have hmax : time 0 ≤ (baseGraphInfo [0, 1] [((0 : ℕ), 1)]).2.2 := h1
  rw [baseGraphInfo_edge] at hmax
  exact absurd (h0.trans hmax) (by decide)

end Picat.Graph
