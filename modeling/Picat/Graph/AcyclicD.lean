import Picat.Graph.AcyclicLeeB
import Picat.Graph.SccD

/-!
# `acyclic_d`: acyclicity by vertex elimination

* `acyclicD_meets_iff` : when the solutions are the acyclic graphs whose edges join vertices that are in.
-/

namespace Picat.Graph
open Relation Elimination PathRanks List

variable {V ι : Type} [DecidableEq V]

/-- The keys of `VEMap` and `size(VEMap)`. -/
structure Keys (V : Type) where
  has : V → V → Bool
  size : ℕ

def Keys.put (ks : Keys V) (x y : V) : Keys V where
  has := fun u v => decide (u = x ∧ v = y) || ks.has u v
  size := if ks.has x y then ks.size else ks.size + 1

/-- Where the key is new, it is put and the degrees of its ends are counted. -/
def putKey (s : (V → ℤ) × Keys V) (x y : V) : (V → ℤ) × Keys V :=
  if s.2.has x y then s
  else
    let degMap1 := Function.update s.1 x (s.1 x + 1)
    (Function.update degMap1 y (degMap1 y + 1), s.2.put x y)

def putKeys (pairs : List (V × V)) (s : (V → ℤ) × Keys V) : (V → ℤ) × Keys V :=
  pairs.foldl (fun s p => putKey s p.1 p.2) s

section
variable (ks : Keys V) (w : V) (rvs1 : List V)

/-- `InNeibs` and `OutNeibs`. -/
def keysIn : List V := rvs1.filter fun v => ks.has v w

def keysOut : List V := rvs1.filter fun v => ks.has w v

/-- `DegMap` and `VEMap` after the elimination of `w`. -/
def cutKeys (degMap : V → ℤ) : (V → ℤ) × Keys V :=
  putKeys (((keysIn ks w rvs1).product (keysOut ks w rvs1)).filter fun p => p.1 ≠ p.2)
    (lowerDegrees (keysOut ks w rvs1) (lowerDegrees (keysIn ks w rvs1) degMap), ks)

/-- What is posted when `w` is eliminated; `val1` are the values in `VEMap` with those of the new variables. -/
structure AcyclicDCut (val val1 : V → V → Bool) : Prop where
  noTwo : ∀ y ∈ keysOut ks w rvs1, ks.has y w = true → val w y = false ∨ val y w = false
  kept : ∀ x y, ks.has x y = true → val1 x y = val x y
  bypass : ∀ x ∈ keysIn ks w rvs1, ∀ y ∈ keysOut ks w rvs1, x ≠ y → val1 x w = true → val1 w y = true → val1 x y = true

end

/-- `EBs`: the edges among the remaining vertices. -/
def leftEdges (ks : Keys V) (val : V → V → Bool) (vs : List V) : List (V × V × Bool) :=
  ((vs.product vs).filter fun p => ks.has p.1 p.2).map fun p => (p.1, p.2, val p.1 p.2)

section
variable (lt : V → V → Bool) (vMap : VMap V) (threshold : ℕ)

def acyclicVertexElimination (degMap : V → ℤ) (ks : Keys V) (val : V → V → Bool) : List V → Prop
  | [] => True
  | [_] => True
  | fv :: v :: rvs =>
    let w := (chooseVertexToCut degMap fv (degMap fv) (v :: rvs)).1
    let rvs1 := (chooseVertexToCut degMap fv (degMap fv) (v :: rvs)).2
    if threshold < ks.size then
      ∃ vBs : V → Bool, (∀ u ∈ fv :: v :: rvs, vMap u = some (vBs u)) ∧
        ∃ time, acyclicLeeB lt ((fv :: v :: rvs).map fun u => (u, vBs u)) (leftEdges ks val (fv :: v :: rvs)) time
    else
      ∃ val1, AcyclicDCut ks w rvs1 val val1 ∧
        acyclicVertexElimination (cutKeys ks w rvs1 degMap).1 (cutKeys ks w rvs1 degMap).2 val1 rvs1
termination_by vs => vs.length
decreasing_by
  rw [length_chooseVertexToCut]
  exact Nat.lt_succ_self _

/-- The vertices that are eliminated, and the vertices and keys that are left when the encoding is switched. -/
def eliminationRun (degMap : V → ℤ) (ks : Keys V) : List V → List V × Option (List V × Keys V)
  | [] => ([], none)
  | [_] => ([], none)
  | fv :: v :: rvs =>
    let w := (chooseVertexToCut degMap fv (degMap fv) (v :: rvs)).1
    let rvs1 := (chooseVertexToCut degMap fv (degMap fv) (v :: rvs)).2
    if threshold < ks.size then ([], some (fv :: v :: rvs, ks))
    else
      let rest := eliminationRun (cutKeys ks w rvs1 degMap).1 (cutKeys ks w rvs1 degMap).2 rvs1
      (w :: rest.1, rest.2)
termination_by vs => vs.length
decreasing_by
  rw [length_chooseVertexToCut]
  exact Nat.lt_succ_self _

end

/-- `VEMap` holds the Boolean of the first entry of a pair. -/
def firstVal (Es : List (V × V × Boolean ι)) (σ : ι → Bool) (x y : V) : Bool :=
  match Es.find? fun e => e.1 = x ∧ e.2.1 = y with
  | some e => e.2.2.val σ
  | none => false

/-- `DegMap` and `VEMap` of the edges. -/
def edgeKeys (Es : List (V × V × Boolean ι)) : (V → ℤ) × Keys V :=
  putKeys (Es.map fun e => (e.1, e.2.1)) (fun _ => 0, ⟨fun _ _ => false, 0⟩)

/-- `Threshold`, for `toInt23 s` the integer part of `2.3*s`. -/
def cutThreshold (toInt23 : ℕ → ℕ) (n size : ℕ) : ℕ := if 30 * n < toInt23 size then 30 * n else toInt23 size

/-- A vertex that is not in `DegMap` raises an error. -/
structure acyclicD (toInt23 : ℕ → ℕ) (lt : V → V → Bool) (Vs : List (V × Boolean ι)) (Es : List (V × V × Boolean ι))
    (σ : ι → Bool) : Prop where
  joins : Joins Vs Es
  noLoop : ∀ v b, (v, v, b) ∈ Es → b.val σ = false
  elimination : acyclicVertexElimination lt (fun v => (putVertices Vs v).map (Boolean.val σ))
    (cutThreshold toInt23 Vs.length (edgeKeys Es).2.size) (edgeKeys Es).1 (edgeKeys Es).2 (firstVal Es σ) (Vs.map Prod.fst)

/-! ## The keys -/

section
variable {ks : Keys V} {w : V} {rvs1 vs : List V} {val val1 : V → V → Bool}

theorem putKey_has {s : (V → ℤ) × Keys V} {x y u v : V} :
    (putKey s x y).2.has u v = true ↔ s.2.has u v = true ∨ (u, v) = (x, y) := by
  rw [Prod.mk.injEq]
  unfold putKey
  split_ifs with hhas
  · refine ⟨.inl, ?_⟩
    rintro (h | ⟨rfl, rfl⟩)
    · exact h
    · exact hhas
  · change (decide (u = x ∧ v = y) || s.2.has u v) = true ↔ _
    rw [Bool.or_eq_true, decide_eq_true_eq]
    exact or_comm

theorem putKeys_has {pairs : List (V × V)} {s : (V → ℤ) × Keys V} {u v : V} :
    (putKeys pairs s).2.has u v = true ↔ s.2.has u v = true ∨ (u, v) ∈ pairs := by
  induction pairs generalizing s with
  | nil => exact (or_iff_left not_mem_nil).symm
  | cons p pairs ih =>
    change (putKeys pairs (putKey s p.1 p.2)).2.has u v = true ↔ _
    rw [ih, putKey_has, mem_cons, or_assoc]

omit [DecidableEq V] in
theorem mem_keysIn {v : V} : v ∈ keysIn ks w rvs1 ↔ v ∈ rvs1 ∧ ks.has v w = true := mem_filter

omit [DecidableEq V] in
theorem mem_keysOut {v : V} : v ∈ keysOut ks w rvs1 ↔ v ∈ rvs1 ∧ ks.has w v = true := mem_filter

theorem cutKeys_has {degMap : V → ℤ} {u v : V} : (cutKeys ks w rvs1 degMap).2.has u v = true ↔
    ks.has u v = true ∨ u ∈ keysIn ks w rvs1 ∧ v ∈ keysOut ks w rvs1 ∧ u ≠ v := by
  unfold cutKeys
  rw [putKeys_has, mem_filter, decide_eq_true_eq, ← and_assoc]
  exact or_congr_right (and_congr_left fun _ => pair_mem_product)

def inKeys (ks : Keys V) (val : V → V → Bool) (vs : List V) (x y : V) : Prop :=
  x ∈ vs ∧ y ∈ vs ∧ ks.has x y = true ∧ val x y = true

omit [DecidableEq V] in
theorem inKeys_congr {l l' : List V} (h : ∀ v, v ∈ l ↔ v ∈ l') : inKeys ks val l = inKeys ks val l' := by
  funext x y
  unfold inKeys
  rw [h x, h y]

/-! ## The switch -/

/-- `RemSet` of the graph that is left. -/
def leftRemSet (ks : Keys V) (vs : List V) : Finset V :=
  (baseGraphInfo vs ((vs.product vs).filter fun p => ks.has p.1 p.2)).2.1

/-- What `acyclic_lee_b` asks of the edges `D` that are left. -/
structure SwitchFits (vMap : VMap V) (vs : List V) (ks : Keys V) (D : V → V → Prop) : Prop where
  ends : ∀ u v, D u v → vMap u = some true ∧ vMap v = some true
  short : ∀ v ∈ vs, ¬ Path D (leftRemSet ks vs) (vs.length - (leftRemSet ks vs).card) v

theorem SwitchFits.anti {vMap : VMap V} {D D' : V → V → Prop} (hle : ∀ u v, D u v → D' u v)
    (h : SwitchFits vMap vs ks D') : SwitchFits vMap vs ks D :=
  ⟨fun u v huv => h.ends u v (hle u v huv), fun v hv hpath => h.short v hv (hpath.mono hle)⟩

omit [DecidableEq V] in
theorem inEdgeB_leftEdges : InEdgeB (leftEdges ks val vs) = inKeys ks val vs := by
  funext x y
  apply propext
  unfold InEdgeB leftEdges inKeys
  rw [mem_map]
  constructor
  · intro h
    obtain ⟨⟨a, b⟩, hmem, heq⟩ := h
    simp only [Prod.mk.injEq] at heq
    obtain ⟨rfl, rfl, hval⟩ := heq
    obtain ⟨hmem, hhas⟩ := mem_filter.1 hmem
    obtain ⟨ha, hb⟩ := pair_mem_product.1 hmem
    exact ⟨ha, hb, hhas, hval⟩
  · intro h
    obtain ⟨hx, hy, hhas, hval⟩ := h
    refine ⟨(x, y), mem_filter.2 ⟨pair_mem_product.2 ⟨hx, hy⟩, hhas⟩, ?_⟩
    rw [hval]

theorem remSetB_leftEdges (vBs : V → Bool) :
    remSetB (vs.map fun u => (u, vBs u)) (leftEdges ks val vs) = leftRemSet ks vs := by
  unfold remSetB leftRemSet leftEdges
  rw [List.map_map, List.map_map]
  congr 3
  · exact List.map_id vs
  · exact List.map_id _

theorem switch_iff {vMap : VMap V} (lt : V → V → Bool) (hnodup : vs.Nodup) (hget : ∀ v ∈ vs, ∃ b, vMap v = some b) :
    (∃ vBs : V → Bool, (∀ u ∈ vs, vMap u = some (vBs u)) ∧
      ∃ time, acyclicLeeB lt (vs.map fun u => (u, vBs u)) (leftEdges ks val vs) time) ↔
        SwitchFits vMap vs ks (inKeys ks val vs) := by
  have hfst : ∀ vBs : V → Bool, (vs.map fun u => (u, vBs u)).map Prod.fst = vs := by
    intro vBs
    rw [List.map_map]
    exact List.map_id vs
  have hmem : ∀ vBs : V → Bool, (∀ u ∈ vs, vMap u = some (vBs u)) → ∀ u ∈ vs,
      ((u, true) ∈ vs.map (fun u => (u, vBs u)) ↔ vMap u = some true) := by
    intro vBs hvBs u hu
    rw [hvBs u hu, Option.some.injEq, List.mem_map]
    constructor
    · intro hp
      obtain ⟨u', -, heq⟩ := hp
      simp only [Prod.mk.injEq] at heq
      rw [← heq.1]
      exact heq.2
    · intro hb
      exact ⟨u, hu, by rw [hb]⟩
  have hfits : ∀ vBs : V → Bool, (∀ u ∈ vs, vMap u = some (vBs u)) →
      ((∃ time, acyclicLeeB lt (vs.map fun u => (u, vBs u)) (leftEdges ks val vs) time) ↔
        SwitchFits vMap vs ks (inKeys ks val vs)) := by
    intro vBs hvBs
    have hends : ∀ u v b, (u, v, b) ∈ leftEdges ks val vs →
        u ∈ (vs.map fun u => (u, vBs u)).map Prod.fst ∧ v ∈ (vs.map fun u => (u, vBs u)).map Prod.fst := by
      intro u v b huv
      rw [hfst]
      obtain ⟨⟨a, c⟩, hac, heq⟩ := List.mem_map.1 huv
      simp only [Prod.mk.injEq] at heq
      rw [← heq.1, ← heq.2.1]
      exact List.pair_mem_product.1 (List.mem_filter.1 hac).1
    rw [acyclicLeeB_iff lt (by rw [hfst]; exact hnodup) hends]
    constructor
    · intro hp
      obtain ⟨hends, hshort⟩ := hp
      rw [inEdgeB_leftEdges] at hends hshort
      rw [hfst, remSetB_leftEdges, List.length_map] at hshort
      refine ⟨fun u v huv => ?_, hshort⟩
      exact ⟨(hmem vBs hvBs u huv.1).1 (hends u v huv).1, (hmem vBs hvBs v huv.2.1).1 (hends u v huv).2⟩
    · intro hp
      obtain ⟨hends, hshort⟩ := hp
      constructor
      · rw [inEdgeB_leftEdges]
        intro u v huv
        exact ⟨(hmem vBs hvBs u huv.1).2 (hends u v huv).1, (hmem vBs hvBs v huv.2.1).2 (hends u v huv).2⟩
      · rw [inEdgeB_leftEdges, hfst, remSetB_leftEdges, List.length_map]
        exact hshort
  constructor
  · intro hp
    obtain ⟨vBs, hvBs, h⟩ := hp
    exact (hfits vBs hvBs).1 h
  · intro h
    have hvBs : ∀ u ∈ vs, vMap u = some ((vMap u).getD false) := by
      intro u hu
      obtain ⟨b, hb⟩ := hget u hu
      rw [hb]
      rfl
    exact ⟨_, hvBs, (hfits _ hvBs).2 h⟩

theorem SwitchFits.acyclic {vMap : VMap V} (h : SwitchFits vMap vs ks (inKeys ks val vs)) :
    Acyclic (inKeys ks val vs) := by
  have hstop : ∀ v ∈ (leftRemSet ks vs : Set V), ¬ TransGen (inKeys ks val vs) v v := by
    intro v hv hcycle
    apply not_cycle_of_remSet vs (Finset.mem_coe.1 hv)
    refine TransGen.mono ?_ v v hcycle
    intro a b hab
    exact mem_filter.2 ⟨pair_mem_product.2 ⟨hab.1, hab.2.1⟩, hab.2.2.1⟩
  apply acyclic_of_no_path hstop (m := vs.length - (leftRemSet ks vs).card)
  intro v hv
  obtain ⟨u, hvu, -⟩ := TransGen.head'_iff.1 hv
  exact h.short v hvu.1

variable {degMap : V → ℤ}

theorem AcyclicDCut.le (h : AcyclicDCut ks w rvs1 val val1) {x y : V}
    (hxy : eliminate (inKeys ks val (w :: rvs1)) w x y) : inKeys (cutKeys ks w rvs1 degMap).2 val1 rvs1 x y := by
  obtain ⟨hx, hy, hedge⟩ := hxy
  rcases hedge with ⟨hxl, hyl, hhas, hval⟩ | ⟨⟨hxl, -, hxw, hvxw⟩, -, hyl, hwy, hvwy⟩
  · rw [← h.kept x y hhas] at hval
    exact ⟨(mem_cons.1 hxl).resolve_left hx, (mem_cons.1 hyl).resolve_left hy, cutKeys_has.2 (.inl hhas), hval⟩
  · have hxr := (mem_cons.1 hxl).resolve_left hx
    have hyr := (mem_cons.1 hyl).resolve_left hy
    have hin := mem_keysIn.2 ⟨hxr, hxw⟩
    have hout := mem_keysOut.2 ⟨hyr, hwy⟩
    have hne : x ≠ y := by
      rintro rfl
      have hor := h.noTwo x hout hxw
      rw [hvxw, hvwy] at hor
      exact hor.elim Bool.noConfusion Bool.noConfusion
    refine ⟨hxr, hyr, cutKeys_has.2 (.inr ⟨hin, hout, hne⟩), h.bypass x hin y hout hne ?_ ?_⟩
    · rw [h.kept x w hxw]
      exact hvxw
    · rw [h.kept w y hwy]
      exact hvwy

/-! ## All eliminations -/

/-- What is asked of the edges beyond acyclicity: those that are bypassed are in, and what is left at a switch fits. -/
structure Bypasses (vMap : VMap V) (ks : Keys V) (vs : List V) (run : List V × Option (List V × Keys V))
    (R : V → V → Prop) : Prop where
  closed : ∀ x ∈ vs, ∀ y ∈ vs, ks.has x y = true → Bypassed R run.1 x y → R x y
  switch : ∀ l ks', run.2 = some (l, ks') → SwitchFits vMap l ks' (eliminateAll R run.1)

omit [DecidableEq V] in
theorem acyclic_of_single {R : V → V → Prop} {a : V} (honly : ∀ x y, R x y → x = a ∧ y = a) (hloop : ¬ R a a) :
    Acyclic R := by
  intro v hv
  obtain ⟨u, hvu, -⟩ := TransGen.head'_iff.1 hv
  obtain ⟨rfl, rfl⟩ := honly v u hvu
  exact hloop hvu

section
variable {lt : V → V → Bool} {vMap : VMap V} {threshold : ℕ}

/-- By induction on the eliminations: the graph after one has the bypasses of the graph before. -/
theorem bypasses_of_elimination (hnodup : vs.Nodup) (hget : ∀ v ∈ vs, ∃ b, vMap v = some b)
    (hloop : ∀ x, ¬ inKeys ks val vs x x) (h : acyclicVertexElimination lt vMap threshold degMap ks val vs) :
    Acyclic (inKeys ks val vs) ∧ Bypasses vMap ks vs (eliminationRun threshold degMap ks vs) (inKeys ks val vs) := by
  induction degMap, ks, vs using eliminationRun.induct (V := V) threshold generalizing val with
  | case1 degMap ks =>
    unfold eliminationRun
    refine ⟨?_, ?_, ?_⟩
    · intro v hv
      obtain ⟨u, hvu, -⟩ := TransGen.head'_iff.1 hv
      exact not_mem_nil hvu.1
    · intro x _ y _ _ hxy
      exact bypassed_nil.1 hxy
    · intro l ks' hl
      exact absurd hl.symm (Option.some_ne_none _)
  | case2 degMap ks a =>
    unfold eliminationRun
    refine ⟨?_, ?_, ?_⟩
    · exact acyclic_of_single (fun x y hxy => ⟨mem_singleton.1 hxy.1, mem_singleton.1 hxy.2.1⟩) (hloop a)
    · intro x _ y _ _ hxy
      exact bypassed_nil.1 hxy
    · intro l ks' hl
      exact absurd hl.symm (Option.some_ne_none _)
  | case3 degMap ks fv v rvs hsize =>
    unfold acyclicVertexElimination at h
    dsimp only at h
    rw [if_pos hsize] at h
    have hfits := (switch_iff lt hnodup hget).1 h
    unfold eliminationRun
    dsimp only
    rw [if_pos hsize]
    refine ⟨hfits.acyclic, ?_, ?_⟩
    · intro x _ y _ _ hxy
      exact bypassed_nil.1 hxy
    · intro l ks' hl
      simp only [Option.some.injEq, Prod.mk.injEq] at hl
      obtain ⟨rfl, rfl⟩ := hl
      exact hfits
  | case4 degMap ks fv v rvs w rvs1 =>
    rename_i hsize ih
    unfold acyclicVertexElimination at h
    dsimp only at h
    rw [if_neg hsize] at h
    obtain ⟨val1, hcut, hrest⟩ := h
    have hperm : (w :: rvs1).Perm (fv :: v :: rvs) := chooseVertexToCut_perm degMap fv (degMap fv) (v :: rvs)
    have hmem : ∀ u, u ∈ w :: rvs1 ↔ u ∈ fv :: v :: rvs := fun u => hperm.mem_iff
    obtain ⟨hw, hnodup1⟩ := nodup_cons.1 (hperm.nodup_iff.2 hnodup)
    have hle : ∀ x y, eliminate (inKeys ks val (fv :: v :: rvs)) w x y →
        inKeys (cutKeys ks w rvs1 degMap).2 val1 rvs1 x y := by
      intro x y hxy
      rw [← inKeys_congr hmem] at hxy
      exact hcut.le hxy
    have hloop1 : ∀ x, ¬ inKeys (cutKeys ks w rvs1 degMap).2 val1 rvs1 x x := by
      rintro x ⟨hx, -, hhas, hval⟩
      have hold : ks.has x x = true := (cutKeys_has.1 hhas).resolve_right fun hnew => hnew.2.2 rfl
      rw [hcut.kept x x hold] at hval
      have hxl := (hmem x).1 (mem_cons_of_mem w hx)
      exact hloop x ⟨hxl, hxl, hold, hval⟩
    obtain ⟨hacyclic, hclosed, hswitch⟩ := ih hnodup1
      (fun u hu => hget u ((hmem u).1 (mem_cons_of_mem w hu))) hloop1 hrest
    unfold eliminationRun
    dsimp only
    rw [if_neg hsize]
    refine ⟨(acyclic_iff_eliminate (w := w)).2 ⟨hloop w, fun u hu => hacyclic u (TransGen.mono hle u u hu)⟩, ?_, ?_⟩
    · intro x hx y hy hhas hxy
      apply (bypassed_cons.1 hxy).elim id
      intro hrest
      have hxw : x ≠ w ∧ y ≠ w := by
        obtain ⟨q, -, -, -, hpath⟩ := hrest
        obtain ⟨hxw, hyw, -⟩ := joinedThrough_of_eliminate hpath
        exact ⟨hxw, hyw⟩
      have hx1 := (mem_cons.1 ((hmem x).2 hx)).resolve_left hxw.1
      have hy1 := (mem_cons.1 ((hmem y).2 hy)).resolve_left hxw.2
      obtain ⟨-, -, -, hval⟩ := hclosed x hx1 y hy1 (cutKeys_has.2 (.inl hhas)) (hrest.mono hle)
      rw [hcut.kept x y hhas] at hval
      exact ⟨hx, hy, hhas, hval⟩
    · intro l ks' hl
      apply (hswitch l ks' hl).anti
      intro u y huy
      exact eliminateAll_mono hle _ huy

omit [DecidableEq V] in
theorem exists_newValues (ks : Keys V) (val : V → V → Bool) (B : V → V → Prop) :
    ∃ val1 : V → V → Bool, (∀ x y, ks.has x y = true → val1 x y = val x y) ∧
      ∀ x y, ks.has x y = false → (val1 x y = true ↔ B x y) := by
  classical
  refine ⟨fun x y => if ks.has x y then val x y else decide (B x y), ?_, ?_⟩
  · intro x y hhas
    exact if_pos hhas
  · intro x y hhas
    dsimp only
    rw [hhas, if_neg Bool.false_ne_true]
    exact decide_eq_true_iff

omit [DecidableEq V] in
/-- The cut holds when the edges at `w` that are in belong to the graph, and the others are in just when they are
bypassed. -/
theorem acyclicDCut_of_bypassed {R : V → V → Prop} {val1 : V → V → Bool} {w : V} {rvs1 run : List V} (hw : w ∉ rvs1)
    (hacyclic : Acyclic R)
    (hvalw : ∀ x ∈ w :: rvs1, ∀ y ∈ w :: rvs1, x = w ∨ y = w → ks.has x y = true → val x y = true → R x y)
    (hkept : ∀ x y, ks.has x y = true → val1 x y = val x y)
    (hval1 : ∀ x ∈ rvs1, ∀ y ∈ rvs1, (val1 x y = true ↔ Bypassed R (w :: run) x y)) :
    AcyclicDCut ks w rvs1 val val1 := by
  have hrest : ∀ {u : V}, u ∈ rvs1 → u ∈ w :: rvs1 := fun hu => mem_cons_of_mem w hu
  refine ⟨?_, hkept, ?_⟩
  · intro y hy hyw
    obtain ⟨hy, hwy⟩ := mem_keysOut.1 hy
    by_contra hno
    rw [not_or, Bool.not_eq_false, Bool.not_eq_false] at hno
    have hRwy := hvalw w mem_cons_self y (hrest hy) (.inl rfl) hwy hno.1
    have hRyw := hvalw y (hrest hy) w mem_cons_self (.inr rfl) hyw hno.2
    exact hacyclic w ((TransGen.single hRwy).tail hRyw)
  · intro x hx y hy hne hxw hwy
    obtain ⟨hx, hhasx⟩ := mem_keysIn.1 hx
    obtain ⟨hy, hhasy⟩ := mem_keysOut.1 hy
    rw [hkept x w hhasx] at hxw
    rw [hkept w y hhasy] at hwy
    have hRxw := hvalw x (hrest hx) w mem_cons_self (.inr rfl) hhasx hxw
    have hRwy := hvalw w mem_cons_self y (hrest hy) (.inl rfl) hhasy hwy
    apply (hval1 x hx y hy).2
    apply bypassed_cons.2 (.inr (bypassed_of_rel _))
    exact ⟨ne_of_mem_of_not_mem hx hw, ne_of_mem_of_not_mem hy hw, .inr ⟨hRxw, hRwy⟩⟩

theorem elimination_of_bypasses {R : V → V → Prop} (hnodup : vs.Nodup) (hget : ∀ v ∈ vs, ∃ b, vMap v = some b)
    (hacyclic : Acyclic R) (hR : ∀ x y, R x y → x ∈ vs ∧ y ∈ vs ∧ ks.has x y = true)
    (hval : ∀ x ∈ vs, ∀ y ∈ vs, ks.has x y = true →
      (val x y = true ↔ Bypassed R (eliminationRun threshold degMap ks vs).1 x y))
    (hswitch : ∀ l ks', (eliminationRun threshold degMap ks vs).2 = some (l, ks') →
      SwitchFits vMap l ks' (eliminateAll R (eliminationRun threshold degMap ks vs).1)) :
    acyclicVertexElimination lt vMap threshold degMap ks val vs := by
  induction degMap, ks, vs using eliminationRun.induct (V := V) threshold generalizing val R with
  | case1 degMap ks =>
    unfold acyclicVertexElimination
    trivial
  | case2 degMap ks a =>
    unfold acyclicVertexElimination
    trivial
  | case3 degMap ks fv v rvs hsize =>
    unfold eliminationRun at hval hswitch
    dsimp only at hval hswitch
    rw [if_pos hsize] at hval hswitch
    have heq : inKeys ks val (fv :: v :: rvs) = R := by
      funext x y
      apply propext
      constructor
      · intro h
        obtain ⟨hx, hy, hhas, hxy⟩ := h
        exact bypassed_nil.1 ((hval x hx y hy hhas).1 hxy)
      · intro hxy
        obtain ⟨hx, hy, hhas⟩ := hR x y hxy
        exact ⟨hx, hy, hhas, (hval x hx y hy hhas).2 (bypassed_of_rel hxy)⟩
    unfold acyclicVertexElimination
    dsimp only
    rw [if_pos hsize, switch_iff lt hnodup hget, heq]
    exact hswitch _ _ rfl
  | case4 degMap ks fv v rvs w rvs1 =>
    rename_i hsize ih
    have hperm : (w :: rvs1).Perm (fv :: v :: rvs) := chooseVertexToCut_perm degMap fv (degMap fv) (v :: rvs)
    have hmem : ∀ u, u ∈ w :: rvs1 ↔ u ∈ fv :: v :: rvs := fun u => hperm.mem_iff
    have hmem1 : ∀ u ∈ rvs1, u ∈ fv :: v :: rvs := fun u hu => (hmem u).1 (mem_cons_of_mem w hu)
    have hwl : w ∈ fv :: v :: rvs := (hmem w).1 mem_cons_self
    obtain ⟨hw, hnodup1⟩ := nodup_cons.1 (hperm.nodup_iff.2 hnodup)
    obtain ⟨run, hrun⟩ : ∃ run, run = eliminationRun threshold (cutKeys ks w rvs1 degMap).1
        (cutKeys ks w rvs1 degMap).2 rvs1 := ⟨_, rfl⟩
    have hstep : eliminationRun threshold degMap ks (fv :: v :: rvs) = (w :: run.1, run.2) := by
      unfold eliminationRun
      dsimp only
      rw [if_neg hsize, hrun]
    rw [hstep] at hval hswitch
    rw [← hrun] at ih
    -- an edge at `w` is in just when it is in the graph
    have hvalw : ∀ x ∈ w :: rvs1, ∀ y ∈ w :: rvs1, x = w ∨ y = w → ks.has x y = true → val x y = true → R x y :=
      fun x hx y hy hxy hhas hv => rel_of_bypassed hxy ((hval x ((hmem x).1 hx) y ((hmem y).1 hy) hhas).1 hv)
    obtain ⟨val1, hkept, hfresh⟩ := exists_newValues ks val (Bypassed R (w :: run.1))
    have hval1 : ∀ x ∈ rvs1, ∀ y ∈ rvs1, (val1 x y = true ↔ Bypassed R (w :: run.1) x y) := by
      intro x hx y hy
      cases hhas : ks.has x y with
      | true =>
        rw [hkept x y hhas]
        exact hval x (hmem1 x hx) y (hmem1 y hy) hhas
      | false => exact hfresh x y hhas
    have hcut : AcyclicDCut ks w rvs1 val val1 := acyclicDCut_of_bypassed hw hacyclic hvalw hkept hval1
    unfold acyclicVertexElimination
    dsimp only
    rw [if_neg hsize]
    refine ⟨val1, hcut, ih hnodup1 (fun u hu => hget u (hmem1 u hu)) (acyclic_iff_eliminate.1 hacyclic).2 ?_ ?_ hswitch⟩
    · rintro x y ⟨hxw, hyw, hxy⟩
      have hin : ∀ {u v : V}, R u v → u ≠ w → u ∈ rvs1 := fun huv hu =>
        (mem_cons.1 ((hmem _).2 (hR _ _ huv).1)).resolve_left hu
      have hout : ∀ {u v : V}, R u v → v ≠ w → v ∈ rvs1 := fun huv hv =>
        (mem_cons.1 ((hmem _).2 (hR _ _ huv).2.1)).resolve_left hv
      rcases hxy with hxy | ⟨hxw', hwy'⟩
      · exact ⟨hin hxy hxw, hout hxy hyw, cutKeys_has.2 (.inl (hR x y hxy).2.2)⟩
      · have hx := hin hxw' hxw
        have hy := hout hwy' hyw
        refine ⟨hx, hy, cutKeys_has.2 (.inr ⟨mem_keysIn.2 ⟨hx, (hR x w hxw').2.2⟩,
          mem_keysOut.2 ⟨hy, (hR w y hwy').2.2⟩, ?_⟩)⟩
        rintro rfl
        exact hacyclic x ((TransGen.single hxw').tail hwy')
    · intro x hx y hy _
      rw [hval1 x hx y hy, bypassed_cons]
      refine ⟨?_, .inr⟩
      rintro (hxy | hrest)
      · exact bypassed_of_rel ⟨ne_of_mem_of_not_mem hx hw, ne_of_mem_of_not_mem hy hw, .inl hxy⟩
      · exact hrest

/-- For a graph without loops the elimination has a solution just when the graph is acyclic, its bypassed edges are in
and what is left at a switch fits. -/
theorem acyclicVertexElimination_iff (hnodup : vs.Nodup) (hget : ∀ v ∈ vs, ∃ b, vMap v = some b)
    (hloop : ∀ x, ¬ inKeys ks val vs x x) : acyclicVertexElimination lt vMap threshold degMap ks val vs ↔
      Acyclic (inKeys ks val vs) ∧ Bypasses vMap ks vs (eliminationRun threshold degMap ks vs) (inKeys ks val vs) := by
  refine ⟨bypasses_of_elimination hnodup hget hloop, ?_⟩
  intro h
  obtain ⟨hacyclic, hclosed, hswitch⟩ := h
  refine elimination_of_bypasses hnodup hget hacyclic (fun x y hxy => ⟨hxy.1, hxy.2.1, hxy.2.2.1⟩) ?_ hswitch
  intro x hx y hy hhas
  constructor
  · intro hxy
    exact bypassed_of_rel ⟨hx, hy, hhas, hxy⟩
  · intro hxy
    exact (hclosed x hx y hy hhas hxy).2.2.2

end

end

/-! ## The constraint -/

section
variable {toInt23 : ℕ → ℕ} {lt : V → V → Bool} {Vs : List (V × Boolean ι)} {Es : List (V × V × Boolean ι)}
variable {σ : ι → Bool}

def FirstIn (Es : List (V × V × Boolean ι)) (σ : ι → Bool) (x y : V) : Prop := firstVal Es σ x y = true

/-- The vertices that `acyclic_d` eliminates, and what is left to `acyclic_lee_b`. -/
def acyclicDRun (toInt23 : ℕ → ℕ) (Vs : List (V × Boolean ι)) (Es : List (V × V × Boolean ι)) :
    List V × Option (List V × Keys V) :=
  eliminationRun (cutThreshold toInt23 Vs.length (edgeKeys Es).2.size) (edgeKeys Es).1 (edgeKeys Es).2 (Vs.map Prod.fst)

/-- A directed acyclic graph: the ends of edges are in, and the edges that are in make no cycle. -/
structure InDag (Vs : List (V × Boolean ι)) (Es : List (V × V × Boolean ι)) (σ : ι → Bool) : Prop where
  ends : ∀ u v, InEdge Es σ u v → InVertex Vs σ u ∧ InVertex Vs σ v
  acyclic : Acyclic (InEdge Es σ)

/-- What `acyclic_d` asks instead: no loop is in, the first entries make no cycle, the bypassed edges are in, and what is
left at a switch fits. -/
structure AcyclicDAsks (toInt23 : ℕ → ℕ) (Vs : List (V × Boolean ι)) (Es : List (V × V × Boolean ι)) (σ : ι → Bool) :
    Prop where
  noLoop : ∀ v b, (v, v, b) ∈ Es → b.val σ = false
  acyclic : Acyclic (FirstIn Es σ)
  bypasses : Bypasses (fun v => (putVertices Vs v).map (Boolean.val σ)) (edgeKeys Es).2 (Vs.map Prod.fst)
    (acyclicDRun toInt23 Vs Es) (FirstIn Es σ)

theorem edgeKeys_has {x y : V} : (edgeKeys Es).2.has x y = true ↔ ∃ b, (x, y, b) ∈ Es := by
  unfold edgeKeys
  rw [putKeys_has, or_iff_right Bool.false_ne_true, mem_map]
  constructor
  · intro h
    obtain ⟨⟨u, v, b⟩, hmem, heq⟩ := h
    simp only [Prod.mk.injEq] at heq
    rw [← heq.1, ← heq.2]
    exact ⟨b, hmem⟩
  · intro h
    obtain ⟨b, hmem⟩ := h
    exact ⟨_, hmem, rfl⟩

theorem FirstIn.inEdge {x y : V} (h : FirstIn Es σ x y) : InEdge Es σ x y := by
  unfold FirstIn firstVal at h
  split at h
  · rename_i e hfind
    have hkey := List.find?_some hfind
    rw [decide_eq_true_eq] at hkey
    have hmem := mem_of_find?_eq_some hfind
    obtain ⟨u, v, b⟩ := e
    obtain ⟨rfl, rfl⟩ := hkey
    exact ⟨b, hmem, h⟩
  · exact absurd h Bool.false_ne_true

theorem inKeys_edgeKeys (hends : Joins Vs Es) :
    inKeys (edgeKeys Es).2 (firstVal Es σ) (Vs.map Prod.fst) = FirstIn Es σ := by
  funext x y
  apply propext
  refine ⟨fun h => h.2.2.2, ?_⟩
  intro h
  obtain ⟨b, hmem, -⟩ := h.inEdge
  exact ⟨(hends x y b hmem).1, (hends x y b hmem).2, edgeKeys_has.2 ⟨b, hmem⟩, h⟩

/-- For distinct vertices and edges between them, what `acyclic_d` asks of an assignment. -/
theorem acyclicD_iff_asks (hnodup : (Vs.map Prod.fst).Nodup) (hends : Joins Vs Es) :
    acyclicD toInt23 lt Vs Es σ ↔ AcyclicDAsks toInt23 Vs Es σ := by
  have hget : ∀ v ∈ Vs.map Prod.fst, ∃ b, (putVertices Vs v).map (Boolean.val σ) = some b := by
    intro v hv
    obtain ⟨b, -, hb⟩ := @vMap_eq _ _ _ Vs σ hnodup v hv
    exact ⟨_, hb⟩
  have hiff : (∀ v b, (v, v, b) ∈ Es → b.val σ = false) → (acyclicVertexElimination lt
      (fun v => (putVertices Vs v).map (Boolean.val σ)) (cutThreshold toInt23 Vs.length (edgeKeys Es).2.size)
        (edgeKeys Es).1 (edgeKeys Es).2 (firstVal Es σ) (Vs.map Prod.fst) ↔
      Acyclic (FirstIn Es σ) ∧ Bypasses (fun v => (putVertices Vs v).map (Boolean.val σ)) (edgeKeys Es).2
        (Vs.map Prod.fst) (acyclicDRun toInt23 Vs Es) (FirstIn Es σ)) := by
    intro hno
    rw [acyclicVertexElimination_iff hnodup hget, inKeys_edgeKeys hends]
    · rfl
    · intro x hx
      obtain ⟨b, hmem, hb⟩ := FirstIn.inEdge hx.2.2.2
      rw [hno x b hmem] at hb
      exact Bool.false_ne_true hb
  constructor
  · intro h
    obtain ⟨-, hno, helim⟩ := h
    obtain ⟨hacyclic, hbypasses⟩ := (hiff hno).1 helim
    exact ⟨hno, hacyclic, hbypasses⟩
  · intro h
    obtain ⟨hno, hacyclic, hbypasses⟩ := h
    exact ⟨hends, hno, (hiff hno).2 ⟨hacyclic, hbypasses⟩⟩

/-- For distinct vertices and edges between them, `acyclic_d` accepts just the directed acyclic graphs at the assignments
where a directed acyclic graph has its bypassed edges in and fits at a switch, and where what `acyclic_d` asks leaves no
edge with an end that is out and no cycle of other than first entries. -/
theorem acyclicD_meets_iff (hnodup : (Vs.map Prod.fst).Nodup) (hends : Joins Vs Es) :
    (acyclicD toInt23 lt Vs Es σ ↔ InDag Vs Es σ) ↔
      (InDag Vs Es σ → Bypasses (fun v => (putVertices Vs v).map (Boolean.val σ)) (edgeKeys Es).2 (Vs.map Prod.fst)
        (acyclicDRun toInt23 Vs Es) (FirstIn Es σ)) ∧
      (AcyclicDAsks toInt23 Vs Es σ → InDag Vs Es σ) := by
  rw [acyclicD_iff_asks hnodup hends]
  constructor
  · intro hiff
    exact ⟨fun h => (hiff.2 h).bypasses, hiff.1⟩
  · intro hp
    obtain ⟨hbypasses, hdag⟩ := hp
    refine ⟨hdag, ?_⟩
    intro h
    refine ⟨?_, ?_, hbypasses h⟩
    · intro v b hmem
      by_contra hb
      exact h.acyclic v (TransGen.single ⟨b, hmem, Bool.eq_true_of_not_eq_false hb⟩)
    · intro v hcycle
      exact h.acyclic v (TransGen.mono (fun x y hxy => FirstIn.inEdge hxy) v v hcycle)

end

theorem acyclicD_meets_iff_edge :
    acyclicD (fun s => 23 * s / 10) (fun u v => decide (u < v)) [(0, .one), (1, .one)] [(0, 1, .var 0)]
        (fun _ : ℕ => true) ↔
      InDag [(0, .one), (1, .one)] [(0, 1, .var 0)] (fun _ : ℕ => true) := by
  refine (acyclicD_meets_iff (by decide) ?_).2 ⟨?_, ?_⟩
  · intro u v b hmem
    fin_cases hmem
    decide
  · intro _
    have hrun : acyclicDRun (fun s => 23 * s / 10) [(0, Boolean.one), (1, .one)] [(0, 1, .var (0 : ℕ))] = ([0], none) := by
      unfold acyclicDRun eliminationRun
      simp [chooseVertexToCut, edgeKeys, putKeys, putKey, Keys.put, cutThreshold, eliminationRun]
    rw [hrun]
    refine ⟨?_, fun l ks' hl => absurd hl.symm (Option.some_ne_none _)⟩
    intro x _ y _ hhas _
    obtain ⟨b, hmem⟩ := edgeKeys_has.1 hhas
    simp only [mem_singleton, Prod.mk.injEq] at hmem
    obtain ⟨rfl, rfl, -⟩ := hmem
    rfl
  · intro _
    have hedge : ∀ u v : ℕ, InEdge [(0, 1, .var 0)] (fun _ : ℕ => true) u v → u = 0 ∧ v = 1 := by
      rintro u v ⟨b, hmem, -⟩
      simp only [mem_singleton, Prod.mk.injEq] at hmem
      exact ⟨hmem.1, hmem.2.1⟩
    constructor
    · intro u v huv
      obtain ⟨rfl, rfl⟩ := hedge u v huv
      exact ⟨⟨.one, by decide, rfl⟩, .one, by decide, rfl⟩
    · intro v hv
      obtain ⟨u, hvu, huv⟩ := TransGen.head'_iff.1 hv
      obtain ⟨w, -, hwv⟩ := TransGen.tail'_iff.1 hv
      have h0 := (hedge v u hvu).1
      have h1 := (hedge w v hwv).2
      omega

/-- The second vertex is out. -/
theorem acyclicD_end_out :
    ¬ (acyclicD (fun s => 23 * s / 10) (fun u v => decide (u < v)) [(0, .one), (1, .zero)] [(0, 1, .var 0)]
        (fun _ : ℕ => true) ↔
      InDag [(0, .one), (1, .zero)] [(0, 1, .var 0)] (fun _ : ℕ => true)) := by
  intro hiff
  have h : InDag [(0, .one), (1, .zero)] [(0, 1, .var 0)] (fun _ : ℕ => true) := by
    refine hiff.1 ⟨?_, ?_, ?_⟩
    · intro u v b hmem
      fin_cases hmem
      decide
    · intro v b hmem
      simp only [mem_singleton, Prod.mk.injEq] at hmem
      omega
    · unfold acyclicVertexElimination
      simp [chooseVertexToCut, edgeKeys, putKeys, putKey, Keys.put, cutThreshold]
      refine ⟨firstVal [(0, 1, .var 0)] fun _ => true, ⟨?_, fun x y _ => rfl, ?_⟩, ?_⟩
      · intro y _
        simp
      · intro x hx
        simp [keysIn] at hx
      · unfold acyclicVertexElimination
        trivial
  obtain ⟨b, hmem, hb⟩ := (h.ends 0 1 ⟨.var 0, mem_cons_self, rfl⟩).2
  have hzero : b = .zero := by
    simpa using hmem
  rw [hzero] at hb
  exact Bool.false_ne_true hb

end Picat.Graph
