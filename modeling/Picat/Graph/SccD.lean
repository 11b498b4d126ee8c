import Mathlib.Tactic.FinCases
import Picat.Graph.Edges
import Picat.Lib.VertexElimination

/-!
# `scc_d`: strong connection by vertex elimination

* `sccD_iff` : there is a solution just when the vertices that are in are strongly connected.
-/

namespace Picat.Graph
open Relation Elimination List

variable {V ι : Type} [DecidableEq V]

section
variable (degMap : V → ℤ)

/-- A vertex with the lowest degree, or one of degree 1 at most; `u` is the best so far, of degree `du`. -/
def chooseVertexToCut : V → ℤ → List V → V × List V
  | u, du, vs =>
    if du ≤ 1 then (u, vs)
    else
      match vs with
      | [] => (u, [])
      | v :: vs =>
        if degMap v < du then ((chooseVertexToCut v (degMap v) vs).1, u :: (chooseVertexToCut v (degMap v) vs).2)
        else ((chooseVertexToCut u du vs).1, v :: (chooseVertexToCut u du vs).2)

omit [DecidableEq V] in
theorem chooseVertexToCut_perm (u : V) (du : ℤ) (vs : List V) :
    ((chooseVertexToCut degMap u du vs).1 :: (chooseVertexToCut degMap u du vs).2).Perm (u :: vs) := by
  induction vs generalizing u du with
  | nil =>
    unfold chooseVertexToCut
    split_ifs
    · exact List.Perm.refl _
    · exact List.Perm.refl _
  | cons v vs ih =>
    unfold chooseVertexToCut
    dsimp only
    split_ifs
    · exact List.Perm.refl _
    · exact (List.Perm.swap u _ _).trans ((ih v (degMap v)).cons u)
    · exact (List.Perm.swap v _ _).trans (((ih u du).cons v).trans (List.Perm.swap u v vs))

omit [DecidableEq V] in
theorem length_chooseVertexToCut (u : V) (du : ℤ) (vs : List V) :
    (chooseVertexToCut degMap u du vs).2.length = vs.length := by
  have h := (chooseVertexToCut_perm degMap u du vs).length_eq
  rw [length_cons, length_cons] at h
  exact Nat.succ_injective h

end

/-- `DegMap`, when the edges have been counted. -/
def countDegrees (Es : List (V × V × Boolean ι)) : V → ℤ :=
  Es.foldl (fun m e =>
    let m1 := Function.update m e.1 (m e.1 + 1)
    Function.update m1 e.2.1 (m1 e.2.1 + 1)) fun _ => 0

/-- `foreach((V,_) in Neibs) DegMap.put(V, DegMap.get(V)-1) end`. -/
def lowerDegrees (neibs : List V) (degMap : V → ℤ) : V → ℤ :=
  neibs.foldl (fun m v => Function.update m v (m v - 1)) degMap

/-- The values of `VEMap`: the Booleans of all edges between two vertices. -/
abbrev VEMap (V : Type) := V → V → Option (List Bool)

/-- `VEMap` from the edges. -/
def putEdges (Es : List (V × V × Boolean ι)) (σ : ι → Bool) : VEMap V :=
  Es.foldl (fun m e u v => if u = e.1 ∧ v = e.2.1 then some [e.2.2.val σ] else m u v) fun _ _ => none

/-- The loop over the pairs of neighbours; `buv` are the values of the bypass edges. -/
def putBypass (buv : V → V → Bool) : List (V × V) → (V → ℤ) → VEMap V → (V → ℤ) × VEMap V
  | [], degMap, veMap => (degMap, veMap)
  | (u, v) :: pairs, degMap, veMap =>
    let degMap1 := Function.update degMap u (degMap u + 1)
    putBypass buv pairs (if (veMap u v).isNone then Function.update degMap1 v (degMap1 v + 1) else degMap)
      (fun x y => if x = u ∧ y = v then some (buv u v :: (veMap u v).getD []) else veMap x y)

/-- The values of `VMap`. -/
abbrev VMap (V : Type) := V → Option Bool

section
variable (vMap : VMap V)

/-- `InNeibs` and `OutNeibs`, without their Booleans. -/
def inNeibs (veMap : VEMap V) (w : V) (rvs1 : List V) : List V :=
  rvs1.filter fun v => v ≠ w ∧ (veMap v w).isSome

def outNeibs (veMap : VEMap V) (w : V) (rvs1 : List V) : List V :=
  rvs1.filter fun v => v ≠ w ∧ (veMap w v).isSome

/-- `max(Bs)`. -/
def maxOf (bs : Option (List Bool)) : Bool := (bs.getD []).foldr or false

/-- What is posted when `w` is eliminated; `bvw`, `bwv` and `buv` are the values of the new edge variables. -/
structure SccDCut (veMap : VEMap V) (gEmpty : Bool) (w : V) (rvs1 : List V) (gEmpty1 bW : Bool) (bvw bwv : V → Bool)
    (buv : V → V → Bool) : Prop where
  stays : gEmpty = false ∨ gEmpty1 = true
  get : vMap w = some bW
  out : gEmpty = false ∨ bW = false
  maxIn : ∀ v ∈ inNeibs veMap w rvs1, bvw v = maxOf (veMap v w)
  maxOut : ∀ v ∈ outNeibs veMap w rvs1, bwv v = maxOf (veMap w v)
  noIn : bW.toNat + (inNeibs veMap w rvs1).countP bvw = 1 → gEmpty1 = true
  noOut : bW.toNat + (outNeibs veMap w rvs1).countP bwv = 1 → gEmpty1 = true
  bypass : ∀ u ∈ inNeibs veMap w rvs1, ∀ v ∈ outNeibs veMap w rvs1, (bvw u = true ∧ bwv v = true ↔ buv u v = true)

def sccDVertexElimination (degMap : V → ℤ) (veMap : VEMap V) (gEmpty : Bool) : List V → Prop
  | [] => gEmpty = true
  | fv :: rvs =>
    let w := (chooseVertexToCut degMap fv (degMap fv) rvs).1
    let rvs1 := (chooseVertexToCut degMap fv (degMap fv) rvs).2
    ∃ (gEmpty1 bW : Bool) (bvw bwv : V → Bool) (buv : V → V → Bool),
      SccDCut vMap veMap gEmpty w rvs1 gEmpty1 bW bvw bwv buv ∧
        let degMap1 := lowerDegrees (outNeibs veMap w rvs1) (lowerDegrees (inNeibs veMap w rvs1) degMap)
        let r := putBypass buv ((inNeibs veMap w rvs1).product (outNeibs veMap w rvs1)) degMap1 veMap
        sccDVertexElimination r.1 r.2 gEmpty1 rvs1
termination_by rvs => rvs.length
decreasing_by
  rw [length_chooseVertexToCut]
  exact Nat.lt_succ_self _

end

/-- A vertex that is not in `VMap` raises an error. -/
def sccD (Vs : List (V × Boolean ι)) (Es : List (V × V × Boolean ι)) (σ : ι → Bool) (k : ℕ) : Prop :=
  let vMap : VMap V := fun v => (putVertices Vs v).map (Boolean.val σ)
  k = Vs.countP (fun p => p.2.val σ) ∧ (∀ v1 v2 b, (v1, v2, b) ∈ Es → ∃ b1 b2, vMap v1 = some b1 ∧ vMap v2 = some b2 ∧
      (b.val σ = true → b1 = true) ∧ (b.val σ = true → b2 = true)) ∧
    sccDVertexElimination vMap (countDegrees Es) (putEdges Es σ) false (Vs.map Prod.fst)

/-! ## The maps -/

/-- An edge of the graph that `VEMap` stands for. -/
def Arc (veMap : VEMap V) (u v : V) : Prop := ∃ bs, veMap u v = some bs ∧ true ∈ bs

omit [DecidableEq V] in
theorem maxOf_iff {veMap : VEMap V} {u v : V} : maxOf (veMap u v) = true ↔ Arc veMap u v := by
  have hmax : ∀ bs : List Bool, bs.foldr or false = true ↔ true ∈ bs := by
    intro bs
    induction bs with
    | nil => simp
    | cons b bs ih =>
      rw [foldr_cons, Bool.or_eq_true, ih, mem_cons, eq_comm]
  unfold maxOf Arc
  cases veMap u v with
  | none => simp
  | some bs => simp [hmax]

theorem arc_putEdges {Es : List (V × V × Boolean ι)} {σ : ι → Bool}
    (hdup : (Es.map fun e => (e.1, e.2.1)).Nodup) {u v : V} : Arc (putEdges Es σ) u v ↔ InEdge Es σ u v := by
  have hgen : ∀ (l : List (V × V × Boolean ι)) (m : VEMap V), (l.map fun e => (e.1, e.2.1)).Nodup →
      (Arc (l.foldl (fun m e u v => if u = e.1 ∧ v = e.2.1 then some [e.2.2.val σ] else m u v) m) u v ↔
        InEdge l σ u v ∨ ((u, v) ∉ l.map (fun e => (e.1, e.2.1)) ∧ Arc m u v)) := by
    intro l
    induction l with
    | nil =>
      intro m _
      simp [InEdge]
    | cons e l ih =>
      intro m hl
      obtain ⟨a, c, b⟩ := e
      rw [map_cons, nodup_cons] at hl
      rw [foldl_cons, ih _ hl.2]
      by_cases huv : u = a ∧ v = c
      · obtain ⟨rfl, rfl⟩ := huv
        have hno : ¬ InEdge l σ u v := by
          intro h
          obtain ⟨b', hb', -⟩ := h
          exact hl.1 (mem_map.2 ⟨_, hb', rfl⟩)
        have hedge : InEdge ((u, v, b) :: l) σ u v ↔ b.val σ = true := by
          constructor
          · intro h
            obtain ⟨b', hmem, hb'⟩ := h
            rcases mem_cons.1 hmem with heq | hmem
            · simp only [Prod.mk.injEq, true_and] at heq
              rw [← heq]
              exact hb'
            · exact absurd ⟨b', hmem, hb'⟩ hno
          · intro hb
            exact ⟨b, mem_cons_self, hb⟩
        rw [hedge]
        simp [hno, hl.1, Arc]
      · have hedge : InEdge ((a, c, b) :: l) σ u v ↔ InEdge l σ u v := by
          constructor
          · intro h
            obtain ⟨b', hmem, hb'⟩ := h
            rcases mem_cons.1 hmem with heq | hmem
            · simp only [Prod.mk.injEq] at heq
              exact absurd ⟨heq.1, heq.2.1⟩ huv
            · exact ⟨b', hmem, hb'⟩
          · intro h
            obtain ⟨b', hmem, hb'⟩ := h
            exact ⟨b', mem_cons_of_mem _ hmem, hb'⟩
        have harc : Arc (fun x y => if x = a ∧ y = c then some [b.val σ] else m x y) u v ↔ Arc m u v := by
          simp only [Arc, if_neg huv]
        rw [hedge, harc, map_cons, mem_cons, Prod.mk.injEq, not_or]
        tauto
  unfold putEdges
  rw [hgen Es _ hdup]
  simp [Arc]

theorem putBypass_snd {buv : V → V → Bool} {pairs : List (V × V)} (hnodup : pairs.Nodup) (degMap : V → ℤ)
    (veMap : VEMap V) (u v : V) :
    (putBypass buv pairs degMap veMap).2 u v =
      if (u, v) ∈ pairs then some (buv u v :: (veMap u v).getD []) else veMap u v := by
  induction pairs generalizing degMap veMap with
  | nil => rfl
  | cons p pairs ih =>
    obtain ⟨a, c⟩ := p
    rw [nodup_cons] at hnodup
    unfold putBypass
    rw [ih hnodup.2]
    by_cases huv : u = a ∧ v = c
    · obtain ⟨rfl, rfl⟩ := huv
      rw [if_neg hnodup.1, if_pos ⟨rfl, rfl⟩, if_pos mem_cons_self]
    · have hne : (u, v) ≠ (a, c) := by
        rw [Ne, Prod.mk.injEq]
        exact huv
      simp only [if_neg huv, mem_cons, hne, false_or]

/-! ## One elimination -/

def arcs (veMap : VEMap V) (l : List V) (u v : V) : Prop := u ∈ l ∧ v ∈ l ∧ Arc veMap u v

def inOf (vMap : VMap V) (l : List V) : Set V := {v | v ∈ l ∧ vMap v = some true}

omit [DecidableEq V] in
theorem arcs_congr {veMap : VEMap V} {l l' : List V} (h : ∀ v, v ∈ l ↔ v ∈ l') : arcs veMap l = arcs veMap l' := by
  funext u v
  unfold arcs
  rw [h u, h v]

omit [DecidableEq V] in
theorem inOf_congr {vMap : VMap V} {l l' : List V} (h : ∀ v, v ∈ l ↔ v ∈ l') : inOf vMap l = inOf vMap l' := by
  ext v
  unfold inOf
  exact and_congr_left fun _ => h v

section
variable {vMap : VMap V} {veMap : VEMap V} {gEmpty gEmpty1 bW : Bool} {w : V} {rvs1 : List V} {bvw bwv : V → Bool}
variable {buv : V → V → Bool}

theorem mem_inNeibs {v : V} (hw : w ∉ rvs1) : v ∈ inNeibs veMap w rvs1 ↔ v ∈ rvs1 ∧ (veMap v w).isSome = true := by
  unfold inNeibs
  rw [mem_filter, decide_eq_true_eq]
  exact and_congr_right fun hv => and_iff_right (ne_of_mem_of_not_mem hv hw)

theorem mem_outNeibs {v : V} (hw : w ∉ rvs1) : v ∈ outNeibs veMap w rvs1 ↔ v ∈ rvs1 ∧ (veMap w v).isSome = true := by
  unfold outNeibs
  rw [mem_filter, decide_eq_true_eq]
  exact and_congr_right fun hv => and_iff_right (ne_of_mem_of_not_mem hv hw)

omit [DecidableEq V] in
theorem Arc.isSome {u v : V} (h : Arc veMap u v) : (veMap u v).isSome = true := by
  obtain ⟨bs, hbs, -⟩ := h
  rw [hbs]
  rfl

omit [DecidableEq V] in
theorem sum_eq_one_iff {b : Bool} {us : List V} {p : V → Bool} {Q : V → Prop} (h : ∀ u, u ∈ us ∧ p u = true ↔ Q u)
    (hb : ∀ u, Q u → b = true) : b.toNat + us.countP p = 1 ↔ b = true ∧ ¬ ∃ u, Q u := by
  have hnone : us.countP p = 0 ↔ ¬ ∃ u, Q u := by simp [countP_eq_zero, ← h]
  cases b with
  | true => simp [← hnone]
  | false => simp [hnone.2 fun hQ => Bool.false_ne_true (hb _ hQ.choose_spec)]

namespace SccDCut

variable (hcut : SccDCut vMap veMap gEmpty w rvs1 gEmpty1 bW bvw bwv buv) (hw : w ∉ rvs1)
include hcut hw

theorem bvw_iff {u : V} (hu : u ∈ rvs1) : u ∈ inNeibs veMap w rvs1 ∧ bvw u = true ↔ Arc veMap u w := by
  constructor
  · intro hp
    obtain ⟨hmem, hb⟩ := hp
    rw [hcut.maxIn u hmem] at hb
    exact maxOf_iff.1 hb
  · intro h
    have hmem := (mem_inNeibs hw).2 ⟨hu, h.isSome⟩
    refine ⟨hmem, ?_⟩
    rw [hcut.maxIn u hmem]
    exact maxOf_iff.2 h

theorem bwv_iff {v : V} (hv : v ∈ rvs1) : v ∈ outNeibs veMap w rvs1 ∧ bwv v = true ↔ Arc veMap w v := by
  constructor
  · intro hp
    obtain ⟨hmem, hb⟩ := hp
    rw [hcut.maxOut v hmem] at hb
    exact maxOf_iff.1 hb
  · intro h
    have hmem := (mem_outNeibs hw).2 ⟨hv, h.isSome⟩
    refine ⟨hmem, ?_⟩
    rw [hcut.maxOut v hmem]
    exact maxOf_iff.2 h

theorem arcs_eq (hnodup : rvs1.Nodup) (degMap : V → ℤ) :
    arcs (putBypass buv ((inNeibs veMap w rvs1).product (outNeibs veMap w rvs1)) degMap veMap).2 rvs1 =
      eliminate (arcs veMap (w :: rvs1)) w := by
  have hpairs : ((inNeibs veMap w rvs1).product (outNeibs veMap w rvs1)).Nodup :=
    (hnodup.filter _).product (hnodup.filter _)
  funext u v
  apply propext
  unfold arcs eliminate
  simp only [mem_cons]
  -- among the others
  by_cases huv : u ∈ rvs1 ∧ v ∈ rvs1
  · obtain ⟨hu, hv⟩ := huv
    have hune := ne_of_mem_of_not_mem hu hw
    have hvne := ne_of_mem_of_not_mem hv hw
    have hnew : Arc (putBypass buv ((inNeibs veMap w rvs1).product (outNeibs veMap w rvs1)) degMap veMap).2 u v ↔
        Arc veMap u v ∨ Arc veMap u w ∧ Arc veMap w v := by
      rw [← hcut.bvw_iff hw hu, ← hcut.bwv_iff hw hv]
      unfold Arc
      rw [putBypass_snd hpairs]
      split_ifs with hmem
      · obtain ⟨hin, hout⟩ := pair_mem_product.1 hmem
        have hby := hcut.bypass u hin v hout
        simp only [Option.some.injEq, exists_eq_left', mem_cons, hin, hout, true_and]
        rw [hby, eq_comm, or_comm]
        apply or_congr_left
        cases veMap u v with
        | none => simp
        | some bs => simp
      · rw [pair_mem_product] at hmem
        exact (or_iff_left fun h => hmem ⟨h.1.1, h.2.1⟩).symm
    simp only [hu, hv, hune, hvne, hnew, or_true, true_or, true_and, ne_eq, not_false_eq_true]
  · constructor
    · intro hp
      obtain ⟨hu, hv, -⟩ := hp
      exact absurd ⟨hu, hv⟩ huv
    · intro hp
      obtain ⟨hu, hv, ⟨hu', hv', -⟩ | ⟨⟨hu', -⟩, -, hv', -⟩⟩ := hp
      · exact absurd ⟨hu'.resolve_left hu, hv'.resolve_left hv⟩ huv
      · exact absurd ⟨hu'.resolve_left hu, hv'.resolve_left hv⟩ huv

theorem sum_in_iff (hends : ∀ u v, arcs veMap (w :: rvs1) u v → vMap v = some true) :
    bW.toNat + (inNeibs veMap w rvs1).countP bvw = 1 ↔ bW = true ∧ ¬ ∃ x, x ≠ w ∧ arcs veMap (w :: rvs1) x w := by
  refine sum_eq_one_iff (fun x => ⟨fun ⟨hmem, hb⟩ => ?_, fun ⟨hne, hx, _, harc⟩ => ?_⟩)
    fun x hx => Option.some.inj (hcut.get.symm.trans (hends x w hx.2))
  · have hx := ((mem_inNeibs hw).1 hmem).1
    exact ⟨ne_of_mem_of_not_mem hx hw, mem_cons_of_mem _ hx, mem_cons_self, (hcut.bvw_iff hw hx).1 ⟨hmem, hb⟩⟩
  · exact (hcut.bvw_iff hw ((mem_cons.1 hx).resolve_left hne)).2 harc

theorem sum_out_iff (hends : ∀ u v, arcs veMap (w :: rvs1) u v → vMap u = some true) :
    bW.toNat + (outNeibs veMap w rvs1).countP bwv = 1 ↔ bW = true ∧ ¬ ∃ x, x ≠ w ∧ arcs veMap (w :: rvs1) w x := by
  refine sum_eq_one_iff (fun x => ⟨fun ⟨hmem, hb⟩ => ?_, fun ⟨hne, _, hx, harc⟩ => ?_⟩)
    fun x hx => Option.some.inj (hcut.get.symm.trans (hends w x hx.2))
  · have hx := ((mem_outNeibs hw).1 hmem).1
    exact ⟨ne_of_mem_of_not_mem hx hw, mem_cons_self, mem_cons_of_mem _ hx, (hcut.bwv_iff hw hx).1 ⟨hmem, hb⟩⟩
  · exact (hcut.bwv_iff hw ((mem_cons.1 hx).resolve_left hne)).2 harc

end SccDCut

/-! ## All eliminations -/

theorem exists_cut (hget : vMap w = some bW) (hstays : gEmpty = false ∨ gEmpty1 = true)
    (hout : gEmpty = false ∨ bW = false)
    (hin1 : bW.toNat + (inNeibs veMap w rvs1).countP (fun v => maxOf (veMap v w)) = 1 → gEmpty1 = true)
    (hout1 : bW.toNat + (outNeibs veMap w rvs1).countP (fun v => maxOf (veMap w v)) = 1 → gEmpty1 = true) :
    SccDCut vMap veMap gEmpty w rvs1 gEmpty1 bW (fun v => maxOf (veMap v w)) (fun v => maxOf (veMap w v))
      (fun u v => maxOf (veMap u w) && maxOf (veMap w v)) :=
  ⟨hstays, hget, hout, fun _ _ => rfl, fun _ _ => rfl, hin1, hout1, fun _ _ _ _ => (Bool.and_eq_true _ _).symm ▸ Iff.rfl⟩

/-- What the constraints say of the remaining graph: nothing is in when `gEmpty` is set, else it is strongly connected. -/
def Meets (vMap : VMap V) (veMap : VEMap V) (l : List V) : Bool → Prop
  | true => ∀ v ∈ l, vMap v = some false
  | false => StronglyConnected (arcs veMap l) (inOf vMap l)

/-- The edges of the remaining graph join vertices that are in. -/
structure Remaining (vMap : VMap V) (veMap : VEMap V) (l : List V) : Prop where
  nodup : l.Nodup
  get : ∀ v ∈ l, ∃ b, vMap v = some b
  ends : ∀ u v, arcs veMap l u v → vMap u = some true ∧ vMap v = some true

omit [DecidableEq V] in
theorem Remaining.perm {l l' : List V} (h : Remaining vMap veMap l) (hp : l'.Perm l) : Remaining vMap veMap l' := by
  refine ⟨hp.nodup_iff.2 h.nodup, fun v hv => h.get v (hp.mem_iff.1 hv), ?_⟩
  rw [arcs_congr fun v => hp.mem_iff]
  exact h.ends

theorem Remaining.cut (h : Remaining vMap veMap (w :: rvs1))
    (hcut : SccDCut vMap veMap gEmpty w rvs1 gEmpty1 bW bvw bwv buv) (degMap : V → ℤ) :
    Remaining vMap (putBypass buv ((inNeibs veMap w rvs1).product (outNeibs veMap w rvs1)) degMap veMap).2 rvs1 := by
  obtain ⟨hw, hnodup⟩ := nodup_cons.1 h.nodup
  refine ⟨hnodup, fun v hv => h.get v (mem_cons_of_mem _ hv), ?_⟩
  rw [hcut.arcs_eq hw hnodup]
  rintro u v ⟨-, -, huv | ⟨huw, hwv⟩⟩
  · exact h.ends u v huv
  · exact ⟨(h.ends u w huw).1, (h.ends w v hwv).2⟩

omit [DecidableEq V] in
theorem Remaining.inOf_cons (h : Remaining vMap veMap (w :: rvs1)) : inOf vMap rvs1 = inOf vMap (w :: rvs1) \ {w} := by
  have hw := (nodup_cons.1 h.nodup).1
  ext v
  constructor
  · intro hp
    obtain ⟨hv, hb⟩ := hp
    exact ⟨⟨mem_cons_of_mem _ hv, hb⟩, ne_of_mem_of_not_mem hv hw⟩
  · intro hp
    obtain ⟨⟨hv, hb⟩, hne⟩ := hp
    exact ⟨(mem_cons.1 hv).resolve_left hne, hb⟩

theorem Remaining.all_out_iff (h : Remaining vMap veMap (w :: rvs1)) :
    (∀ v ∈ rvs1, vMap v = some false) ↔ ∀ v ∈ inOf vMap (w :: rvs1), v = w := by
  have hw := (nodup_cons.1 h.nodup).1
  constructor
  · rintro hall v ⟨hv, hb⟩
    by_contra hne
    rw [hall v ((mem_cons.1 hv).resolve_left hne)] at hb
    exact absurd hb (by decide)
  · intro hall v hv
    obtain ⟨b, hb⟩ := h.get v (mem_cons_of_mem _ hv)
    cases b with
    | false => exact hb
    | true => exact absurd (hall v ⟨mem_cons_of_mem _ hv, hb⟩) (ne_of_mem_of_not_mem hv hw)

theorem meets_cons (h : Remaining vMap veMap (w :: rvs1)) (degMap : V → ℤ) : Meets vMap veMap (w :: rvs1) gEmpty ↔
      ∃ (gEmpty1 bW : Bool) (bvw bwv : V → Bool) (buv : V → V → Bool),
        SccDCut vMap veMap gEmpty w rvs1 gEmpty1 bW bvw bwv buv ∧
          Meets vMap (putBypass buv ((inNeibs veMap w rvs1).product (outNeibs veMap w rvs1)) degMap veMap).2
            rvs1 gEmpty1 := by
  obtain ⟨hw, hnodup⟩ := nodup_cons.1 h.nodup
  obtain ⟨b, hb⟩ := h.get w mem_cons_self
  have hin : ∀ u v, arcs veMap (w :: rvs1) u v → u ∈ inOf vMap (w :: rvs1) ∧ v ∈ inOf vMap (w :: rvs1) :=
    fun u v huv => ⟨⟨huv.1, (h.ends u v huv).1⟩, huv.2.1, (h.ends u v huv).2⟩
  cases gEmpty with
  | true =>
    constructor
    · intro hall
      refine ⟨true, false, _, _, _, exists_cut (hall w mem_cons_self) (.inr rfl) (.inr rfl) (fun _ => rfl)
        (fun _ => rfl), ?_⟩
      intro v hv
      exact hall v (mem_cons_of_mem _ hv)
    · rintro ⟨gEmpty1, bW, bvw, bwv, buv, hcut, hrest⟩ v hv
      rw [hcut.stays.resolve_left (by decide)] at hrest
      rcases mem_cons.1 hv with rfl | hv
      · rw [hcut.get, hcut.out.resolve_left (by decide)]
      · exact hrest v hv
  | false =>
    -- the values that the new variables must have
    have hnew := fun g1 => @exists_cut _ _ vMap veMap false g1 b w rvs1 hb (.inl rfl) (.inl rfl)
    have htrue := hnew true (fun _ => rfl) (fun _ => rfl)
    have hsumIn := htrue.sum_in_iff hw fun u v huv => (h.ends u v huv).2
    have hsumOut := htrue.sum_out_iff hw fun u v huv => (h.ends u v huv).1
    cases b with
    | false =>
      have hout : w ∉ inOf vMap (w :: rvs1) := by
        intro hp
        obtain ⟨-, ht⟩ := hp
        rw [hb] at ht
        exact absurd ht (by decide)
      have hsame : inOf vMap rvs1 = inOf vMap (w :: rvs1) := by
        rw [h.inOf_cons, Set.sdiff_singleton_eq_self hout]
      change StronglyConnected _ _ ↔ _
      rw [← stronglyConnected_of_notMem hout, ← hsame]
      constructor
      · intro hsc
        have hcut := hnew false (fun hs => absurd (hsumIn.1 hs).1 Bool.false_ne_true)
          (fun hs => absurd (hsumOut.1 hs).1 Bool.false_ne_true)
        refine ⟨false, false, _, _, _, hcut, ?_⟩
        change StronglyConnected _ _
        rw [hcut.arcs_eq hw hnodup]
        exact hsc
      · intro hp
        obtain ⟨gEmpty1, bW, bvw, bwv, buv, hcut, hrest⟩ := hp
        cases gEmpty1 with
        | false =>
          change StronglyConnected _ _ at hrest
          rw [hcut.arcs_eq hw hnodup] at hrest
          exact hrest
        | true =>
          rintro u ⟨hu, hbu⟩
          rw [hrest u hu] at hbu
          exact absurd hbu (by decide)
    | true =>
      have hinS : w ∈ inOf vMap (w :: rvs1) := ⟨mem_cons_self, hb⟩
      change StronglyConnected _ _ ↔ _
      rw [stronglyConnected_iff hinS hin, ← h.inOf_cons, ← h.all_out_iff]
      constructor
      · rintro (hall | ⟨hexin, hexout, hsc⟩)
        · exact ⟨true, true, _, _, _, htrue, hall⟩
        · have hcut := hnew false (fun hs => absurd hexin (hsumIn.1 hs).2) (fun hs => absurd hexout (hsumOut.1 hs).2)
          refine ⟨false, true, _, _, _, hcut, ?_⟩
          change StronglyConnected _ _
          rw [hcut.arcs_eq hw hnodup]
          exact hsc
      · intro hp
        obtain ⟨gEmpty1, bW, bvw, bwv, buv, hcut, hrest⟩ := hp
        cases gEmpty1 with
        | true => exact .inl hrest
        | false =>
          have hbW : bW = true := by
            have := hcut.get
            rw [hb, Option.some.injEq] at this
            exact this.symm
          have hnotIn := fun hno => Bool.false_ne_true
            (hcut.noIn ((hcut.sum_in_iff hw fun u v huv => (h.ends u v huv).2).2 ⟨hbW, hno⟩))
          have hnotOut := fun hno => Bool.false_ne_true
            (hcut.noOut ((hcut.sum_out_iff hw fun u v huv => (h.ends u v huv).1).2 ⟨hbW, hno⟩))
          change StronglyConnected _ _ at hrest
          rw [hcut.arcs_eq hw hnodup] at hrest
          exact .inr ⟨not_not.1 hnotIn, not_not.1 hnotOut, hrest⟩

omit [DecidableEq V] in
theorem Meets.perm {l l' : List V} (hp : l'.Perm l) : Meets vMap veMap l' gEmpty ↔ Meets vMap veMap l gEmpty := by
  cases gEmpty with
  | true => exact forall_congr' fun v => imp_congr_left hp.mem_iff
  | false =>
    change StronglyConnected _ _ ↔ StronglyConnected _ _
    rw [arcs_congr fun v => hp.mem_iff, inOf_congr fun v => hp.mem_iff]

theorem sccDVertexElimination_iff (n : ℕ) (degMap : V → ℤ) {rvs : List V} (hlen : rvs.length = n)
    (h : Remaining vMap veMap rvs) (hempty : rvs = [] → gEmpty = true) :
    sccDVertexElimination vMap degMap veMap gEmpty rvs ↔ Meets vMap veMap rvs gEmpty := by
  induction n generalizing degMap veMap gEmpty rvs with
  | zero =>
    have hnil := length_eq_zero_iff.1 hlen
    subst hnil
    unfold sccDVertexElimination
    rw [hempty rfl]
    exact iff_of_true rfl fun v hv => absurd hv not_mem_nil
  | succ n ih =>
    obtain ⟨fv, rvs, rfl⟩ := exists_cons_of_length_eq_add_one hlen
    have hperm := chooseVertexToCut_perm degMap fv (degMap fv) rvs
    have hlen1 := length_chooseVertexToCut degMap fv (degMap fv) rvs
    unfold sccDVertexElimination
    dsimp only
    generalize (chooseVertexToCut degMap fv (degMap fv) rvs).1 = w at hperm ⊢
    generalize (chooseVertexToCut degMap fv (degMap fv) rvs).2 = rvs1 at hperm hlen1 ⊢
    have h1 := h.perm hperm
    rw [← Meets.perm hperm, meets_cons h1 (lowerDegrees (outNeibs veMap w rvs1)
      (lowerDegrees (inNeibs veMap w rvs1) degMap))]
    rw [length_cons, ← hlen1] at hlen
    by_cases hnil : rvs1 = []
    · -- the last vertex: `GEmpty1` can be set
      subst hnil
      constructor
      · intro hp
        obtain ⟨gEmpty1, bW, bvw, bwv, buv, hcut, hrest⟩ := hp
        unfold sccDVertexElimination at hrest
        subst hrest
        exact ⟨true, bW, bvw, bwv, buv, hcut, fun v hv => absurd hv not_mem_nil⟩
      · intro hp
        obtain ⟨gEmpty1, bW, bvw, bwv, buv, hcut, -⟩ := hp
        refine ⟨true, bW, bvw, bwv, buv, { hcut with
          stays := .inr rfl
          noIn := fun _ => rfl
          noOut := fun _ => rfl }, ?_⟩
        unfold sccDVertexElimination
        rfl
    · constructor
      · intro hp
        obtain ⟨gEmpty1, bW, bvw, bwv, buv, hcut, hrest⟩ := hp
        exact ⟨gEmpty1, bW, bvw, bwv, buv, hcut,
          (ih _ (Nat.succ_injective hlen) (h1.cut hcut _) (fun h => absurd h hnil)).1 hrest⟩
      · intro hp
        obtain ⟨gEmpty1, bW, bvw, bwv, buv, hcut, hrest⟩ := hp
        exact ⟨gEmpty1, bW, bvw, bwv, buv, hcut,
          (ih _ (Nat.succ_injective hlen) (h1.cut hcut _) (fun h => absurd h hnil)).2 hrest⟩

end

section
variable {Vs : List (V × Boolean ι)} {Es : List (V × V × Boolean ι)} {σ : ι → Bool}

/-- For distinct vertices and edges between them, no pair twice, `scc_d` has a solution just when the edges that are in
join vertices that are in and the vertices that are in are strongly connected by them. -/
theorem sccD_iff (hnodup : (Vs.map Prod.fst).Nodup) (hne : Vs ≠ []) (hends : Joins Vs Es)
    (hdup : (Es.map fun e => (e.1, e.2.1)).Nodup) :
    (∃ k, sccD Vs Es σ k) ↔ (∀ u v, InEdge Es σ u v → InVertex Vs σ u ∧ InVertex Vs σ v) ∧
        ∀ u v, InVertex Vs σ u → InVertex Vs σ v → ReflTransGen (InEdge Es σ) u v := by
  have hin : ∀ v, (putVertices Vs v).map (Boolean.val σ) = some true ↔ InVertex Vs σ v := fun v =>
    vMap_eq_true_iff hnodup
  have harcs : arcs (putEdges Es σ) (Vs.map Prod.fst) = InEdge Es σ := by
    funext u v
    apply propext
    unfold arcs
    rw [arc_putEdges hdup]
    refine ⟨fun h => h.2.2, ?_⟩
    intro hp
    obtain ⟨b, hmem, hb⟩ := hp
    exact ⟨(hends u v b hmem).1, (hends u v b hmem).2, b, hmem, hb⟩
  have hposted : (∀ v1 v2 b, (v1, v2, b) ∈ Es → ∃ b1 b2, (putVertices Vs v1).map (Boolean.val σ) = some b1 ∧
      (putVertices Vs v2).map (Boolean.val σ) = some b2 ∧ (b.val σ = true → b1 = true) ∧
      (b.val σ = true → b2 = true)) ↔ ∀ u v, InEdge Es σ u v → InVertex Vs σ u ∧ InVertex Vs σ v := by
    constructor
    · rintro h u v ⟨b, hmem, hb⟩
      obtain ⟨b1, b2, h1, h2, hb1, hb2⟩ := h u v b hmem
      rw [hb1 hb] at h1
      rw [hb2 hb] at h2
      exact ⟨(hin u).1 h1, (hin v).1 h2⟩
    · intro h v1 v2 b hmem
      obtain ⟨c1, -, h1⟩ := @vMap_eq _ _ _ Vs σ hnodup v1 (hends v1 v2 b hmem).1
      obtain ⟨c2, -, h2⟩ := @vMap_eq _ _ _ Vs σ hnodup v2 (hends v1 v2 b hmem).2
      refine ⟨_, _, h1, h2, ?_, ?_⟩
      · intro hb
        have := (hin v1).2 (h v1 v2 ⟨b, hmem, hb⟩).1
        rw [h1, Option.some.injEq] at this
        exact this
      · intro hb
        have := (hin v2).2 (h v1 v2 ⟨b, hmem, hb⟩).2
        rw [h2, Option.some.injEq] at this
        exact this
  have hrem : (∀ u v, InEdge Es σ u v → InVertex Vs σ u ∧ InVertex Vs σ v) →
      Remaining (fun v => (putVertices Vs v).map (Boolean.val σ)) (putEdges Es σ) (Vs.map Prod.fst) := by
    intro h
    refine ⟨hnodup, ?_, ?_⟩
    · intro v hv
      obtain ⟨b, -, hb⟩ := @vMap_eq _ _ _ Vs σ hnodup v hv
      exact ⟨_, hb⟩
    · rw [harcs]
      intro u v huv
      exact ⟨(hin u).2 (h u v huv).1, (hin v).2 (h u v huv).2⟩
  have hmeets : Meets (fun v => (putVertices Vs v).map (Boolean.val σ)) (putEdges Es σ) (Vs.map Prod.fst) false ↔
      ∀ u v, InVertex Vs σ u → InVertex Vs σ v → ReflTransGen (InEdge Es σ) u v := by
    change StronglyConnected _ _ ↔ _
    rw [harcs]
    constructor
    · intro h u v hu hv
      exact h u ⟨hu.mem, (hin u).2 hu⟩ v ⟨hv.mem, (hin v).2 hv⟩
    · intro h u hu v hv
      exact h u v ((hin u).1 hu.2) ((hin v).1 hv.2)
  have hnil : Vs.map Prod.fst = [] → false = true := fun h => absurd (map_eq_nil_iff.1 h) hne
  unfold sccD
  dsimp only
  rw [hposted]
  constructor
  · intro hp
    obtain ⟨k, -, hends', helim⟩ := hp
    exact ⟨hends', hmeets.1 ((sccDVertexElimination_iff _ _ rfl (hrem hends') hnil).1 helim)⟩
  · intro hp
    obtain ⟨hends', hconn⟩ := hp
    exact ⟨_, rfl, hends', (sccDVertexElimination_iff _ _ rfl (hrem hends') hnil).2 (hmeets.2 hconn)⟩

end

theorem sccD_iff_two_cycle : ∃ k, sccD [(0, .one), (1, .one)] [(0, 1, .var ()), (1, 0, .var ())] (fun _ => true) k := by
  refine (sccD_iff (by decide) (by decide) ?_ (by decide)).2 ⟨?_, ?_⟩
  · intro u v b hmem
    fin_cases hmem <;> decide
  · rintro u v ⟨b, hmem, -⟩
    fin_cases hmem
    · exact ⟨⟨.one, by decide, rfl⟩, ⟨.one, by decide, rfl⟩⟩
    · exact ⟨⟨.one, by decide, rfl⟩, ⟨.one, by decide, rfl⟩⟩
  · have h01 : InEdge [(0, 1, .var ()), (1, 0, .var ())] (fun _ => true) 0 1 := ⟨.var (), by decide, rfl⟩
    have h10 : InEdge [(0, 1, .var ()), (1, 0, .var ())] (fun _ => true) 1 0 := ⟨.var (), by decide, rfl⟩
    rintro u v ⟨b, hu, -⟩ ⟨c, hv, -⟩
    fin_cases hu <;> fin_cases hv
    · exact ReflTransGen.refl
    · exact ReflTransGen.single h01
    · exact ReflTransGen.single h10
    · exact ReflTransGen.refl

end Picat.Graph
