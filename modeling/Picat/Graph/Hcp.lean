import Picat.Graph.Vertices
import Picat.Lib.OneCycle

/-!
# `hcp`: one cycle through the vertices that are in

* `hcpDist_sound`, `exists_hcpDist` : the branch with distances.
-/

namespace Picat.Graph
open Finset Cycles

variable {V ι : Type} [DecidableEq V]

/-- `AdjMap`: the neighbours of every vertex, sorted and without duplicates. -/
def hcpCheckEs (vNumMap : V → Option ℕ) : List (V × V × Boolean ι) → (ℕ → List ℕ) → Except (GraphError V) (ℕ → List ℕ)
  | [], adjMap => .ok fun I => (adjMap I).toFinset.sort
  | (v1, v2, _) :: es, adjMap =>
    match vNumMap v1 with
    | none => .error (.unknownVertexName v1)
    | some i1 =>
      match vNumMap v2 with
      | none => .error (.unknownVertexName v2)
      | some i2 => hcpCheckEs vNumMap es (Function.update adjMap i1 (i2 :: adjMap i1))

/-- The variables that `hcp_aux` makes. -/
structure HcpVars where
  k : ℕ
  kGt1 : Bool
  kGt2 : Bool
  /-- the array given to `circuit` -/
  a : ℕ → ℕ
  h : ℕ → ℕ → Bool
  tmpB : ℕ → Bool
  start : ℕ → Bool
  hasStarted : ℕ → Bool
  distA : ℕ → ℕ

/-- What the solver has bound at the tests of `hcp_scc_choose_start` and of the last loop. -/
structure HcpSeen where
  one : ℕ → Bool
  zero : ℕ → ℕ → Bool

section
variable (r : CheckedVs V ι) (Es : List (V × V × Boolean ι)) (adjMap : ℕ → List ℕ) (σ : ι → Bool) (x : HcpVars)

/-- `VNumMap.get(V)`. -/
def CheckedVs.get (r : CheckedVs V ι) (v : V) : ℕ := (r.vNumMap v).getD 0

/-- All vertices are known to be in: the edges are the values of an array, given to `circuit`. -/
structure CircuitPosted : Prop where
  k : x.k = r.n
  dom : ∀ I ∈ Icc 1 r.n, x.a I ∈ Icc 1 r.n
  neibs : ∀ I ∈ Icc 1 r.n, x.a I ∈ adjMap I
  channel : ∀ v1 v2 b, (v1, v2, b) ∈ Es → (x.a (r.get v1) = r.get v2 ↔ b.val σ = true)
  circuit : OneCycle (fun I J => I ∈ Icc 1 r.n ∧ x.a I = J) (Icc 1 r.n)

def CheckedVs.maxK (r : CheckedVs V ι) : ℕ := max (r.n - r.nZeros) 1

structure HcpDegree : Prop where
  dom : r.minK ≤ x.k ∧ x.k ≤ r.maxK
  sum : count (Icc 1 r.n) (toArray r.bs σ) = x.k
  kGt : if 2 < r.minK then x.kGt2 = true ∧ x.kGt1 = true
    else (x.kGt2 = true ↔ 2 < x.k) ∧ (x.kGt1 = true ↔ 1 < x.k) ∧ (x.kGt2 = true → x.kGt1 = true)
  /-- `H[I1,I2] = B` -/
  cell : ∀ v1 v2 b, (v1, v2, b) ∈ Es → x.h (r.get v1) (r.get v2) = b.val σ
  ends : ∀ v1 v2 b, (v1, v2, b) ∈ Es → r.get v1 ≠ r.get v2 → b.val σ = true →
    toArray r.bs σ (r.get v1) = true ∧ toArray r.bs σ (r.get v2) = true
  rest : ∀ I ∈ Icc 1 r.n, ∀ J ∈ Icc 1 r.n, (∀ v1 v2 b, (v1, v2, b) ∈ Es → ¬ (r.get v1 = I ∧ r.get v2 = J)) →
    x.h I J = false
  tmpB : ∀ I ∈ Icc 1 r.n, x.tmpB I = true ∨ toArray r.bs σ I = false ∨ x.kGt1 = false
  out : ∀ I ∈ Icc 1 r.n, x.tmpB I = true → count ((Icc 1 r.n).filter (· ≠ I)) (fun J => x.h I J) = 1
  into : ∀ I ∈ Icc 1 r.n, x.tmpB I = true → count ((Icc 1 r.n).filter (· ≠ I)) (fun J => x.h J I) = 1

structure HcpDistances (seenZero : ℕ → ℕ → Bool) : Prop where
  dom : ∀ I ∈ Icc 1 r.n, x.distA I ≤ r.maxK - 1
  start : ∀ I ∈ Icc 1 r.n, x.start I = true → x.distA I = 0
  /-- `#~KGt2 #\/ #~H[I,J] #\/ #~H[J,I]` -/
  noTwo : ∀ I ∈ Icc 1 r.n, ∀ J ∈ adjMap I, seenZero I J = false → I < J →
    x.kGt2 = false ∨ x.h I J = false ∨ x.h J I = false
  /-- `#~Start[J] #/\ H[I,J] #=> DistA[J] #= DistA[I]+1` -/
  step : ∀ I ∈ Icc 1 r.n, ∀ J ∈ adjMap I, seenZero I J = false → x.start J = false → x.h I J = true →
    x.distA J = x.distA I + 1

def hcpAux (seen : HcpSeen) : Prop :=
  if r.minK = r.n then CircuitPosted r Es adjMap σ x
  else HcpDegree r Es σ x ∧ hcpSccChooseStart r.n (toArray r.bs σ) x.kGt1 r.minK seen.one x.start x.hasStarted ∧
    HcpDistances r adjMap x seen.zero

/-- What the solver has bound holds in every solution of what was posted. -/
structure HcpSeen.Sound (seen : HcpSeen) : Prop where
  one : ∀ σ x, HcpDegree r Es σ x → ∀ I ∈ Icc 1 r.n, seen.one I = true → toArray r.bs σ I = true
  zero : ∀ σ x, hcpAux r Es adjMap σ x seen → ∀ I ∈ Icc 1 r.n, ∀ J ∈ Icc 1 r.n, seen.zero I J = true → x.h I J = false

end

def hcpCheck (Vs : List (V × Boolean ι)) (Es : List (V × V × Boolean ι)) :
    Except (GraphError V) (CheckedVs V ι × (ℕ → List ℕ)) :=
  match hcpSccCheckVs Vs 1 (fun _ => none) 0 0 with
  | .error e => .error e
  | .ok r =>
    match hcpCheckEs r.vNumMap Es (fun _ => []) with
    | .error e => .error e
    | .ok adjMap => .ok (r, adjMap)

def hcp (Vs : List (V × Boolean ι)) (Es : List (V × V × Boolean ι)) (seen : HcpSeen) (σ : ι → Bool) (x : HcpVars) :
    Prop :=
  match hcpCheck Vs Es with
  | .error _ => False
  | .ok (r, adjMap) => hcpAux r Es adjMap σ x seen

/-! ## The checks -/

section
variable (Vs : List (V × Boolean ι)) (Es : List (V × V × Boolean ι))

def checked : CheckedVs V ι := ⟨Vs.length, numberOf Vs, Vs.map Prod.snd, zeros Vs, ones Vs⟩

def Joins : Prop := ∀ u v b, (u, v, b) ∈ Es → u ∈ Vs.map Prod.fst ∧ v ∈ Vs.map Prod.fst

variable {Vs Es}

theorem checked_get {v : V} (hv : v ∈ Vs.map Prod.fst) : (checked Vs).get v = num Vs v := by
  unfold CheckedVs.get checked
  simp only [numberOf, if_pos hv, Option.getD_some]

theorem checkEs_spec (hends : Joins Vs Es) (m : ℕ → List ℕ) : ∃ adjMap, hcpCheckEs (numberOf Vs) Es m = .ok adjMap ∧
      ∀ I J, J ∈ adjMap I ↔ J ∈ m I ∨ ∃ u v b, (u, v, b) ∈ Es ∧ num Vs u = I ∧ num Vs v = J := by
  induction Es generalizing m with
  | nil =>
    refine ⟨_, rfl, ?_⟩
    intro I J
    simp
  | cons e Es ih =>
    obtain ⟨u, v, b⟩ := e
    obtain ⟨hu, hv⟩ := hends u v b (by simp)
    obtain ⟨adjMap, hok, hspec⟩ := ih (fun u' v' b' h => hends u' v' b' (List.mem_cons_of_mem _ h))
      (Function.update m (num Vs u) (num Vs v :: m (num Vs u)))
    refine ⟨adjMap, ?_, ?_⟩
    · unfold hcpCheckEs numberOf
      rw [if_pos hu, if_pos hv]
      exact hok
    · intro I J
      rw [hspec I J]
      by_cases hI : I = num Vs u
      · subst hI
        simp only [Function.update_self, List.mem_cons]
        constructor
        · rintro ((rfl | h) | ⟨u', v', b', hmem, h⟩)
          · exact .inr ⟨u, v, b, .inl rfl, rfl, rfl⟩
          · exact .inl h
          · exact .inr ⟨u', v', b', .inr hmem, h⟩
        · rintro (h | ⟨u', v', b', heq | hmem, h⟩)
          · exact .inl (.inr h)
          · simp only [Prod.mk.injEq] at heq
            obtain ⟨rfl, rfl, rfl⟩ := heq
            exact .inl (.inl h.2.symm)
          · exact .inr ⟨u', v', b', hmem, h⟩
      · rw [Function.update_of_ne hI]
        refine or_congr_right ⟨?_, ?_⟩
        · intro hp
          obtain ⟨u', v', b', hmem, h⟩ := hp
          exact ⟨u', v', b', List.mem_cons_of_mem _ hmem, h⟩
        · intro hp
          obtain ⟨u', v', b', hmem, h⟩ := hp
          rcases List.mem_cons.1 hmem with heq | hmem
          · simp only [Prod.mk.injEq] at heq
            obtain ⟨rfl, rfl, rfl⟩ := heq
            exact absurd h.1.symm hI
          · exact ⟨u', v', b', hmem, h⟩

theorem hcpCheck_spec (hnodup : (Vs.map Prod.fst).Nodup) (hends : Joins Vs Es) :
    ∃ adjMap, hcpCheck Vs Es = .ok (checked Vs, adjMap) ∧
      ∀ I J, J ∈ adjMap I ↔ ∃ u v b, (u, v, b) ∈ Es ∧ num Vs u = I ∧ num Vs v = J := by
  obtain ⟨adjMap, hok, hspec⟩ := checkEs_spec hends (fun _ => [])
  refine ⟨adjMap, ?_, ?_⟩
  · unfold hcpCheck
    rw [checkVs_of_nodup Vs hnodup]
    simp only [hok]
    rfl
  · intro I J
    rw [hspec I J]
    simp

end

/-! ## Edges by their numbers -/

def EdgesAgree (Es : List (V × V × Boolean ι)) (σ : ι → Bool) : Prop :=
  ∀ u v b b', (u, v, b) ∈ Es → (u, v, b') ∈ Es → b.val σ = b'.val σ

section
variable {Vs : List (V × Boolean ι)} {Es : List (V × V × Boolean ι)} {σ : ι → Bool}

omit [DecidableEq V] in
theorem EdgesAgree.inEdge_iff (h : EdgesAgree Es σ) {u v : V} {b : Boolean ι} (he : (u, v, b) ∈ Es) :
    InEdge Es σ u v ↔ b.val σ = true := by
  constructor
  · intro hp
    obtain ⟨b', hmem, hb'⟩ := hp
    rw [h u v b b' he hmem, hb']
  · intro hb
    exact ⟨b, he, hb⟩

omit [DecidableEq V] in
theorem InEdge.joins (hends : Joins Vs Es) {u v : V} (h : InEdge Es σ u v) :
    u ∈ Vs.map Prod.fst ∧ v ∈ Vs.map Prod.fst := by
  obtain ⟨b, hmem, -⟩ := h
  exact hends u v b hmem

theorem forall_num (hnodup : (Vs.map Prod.fst).Nodup) {P : ℕ → Prop} (h : ∀ v ∈ Vs.map Prod.fst, P (num Vs v)) :
    ∀ I ∈ Icc 1 Vs.length, P I := by
  intro I hI
  obtain ⟨v, b, hmem, rfl⟩ := exists_num hnodup hI
  exact h v (List.mem_map.2 ⟨_, hmem, rfl⟩)

variable (Vs) in
theorem exists_array {β : Type} [Inhabited β] (f : V → β) : ∃ d : ℕ → β, ∀ v ∈ Vs.map Prod.fst, d (num Vs v) = f v := by
  classical
  refine ⟨fun I => if h : ∃ v ∈ Vs.map Prod.fst, num Vs v = I then f h.choose else default, ?_⟩
  intro v hv
  have hex : ∃ w ∈ Vs.map Prod.fst, num Vs w = num Vs v := ⟨v, hv, rfl⟩
  have hch := hex.choose_spec
  simp only [dif_pos hex]
  rw [num_inj hch.1 hch.2]

omit [DecidableEq V] in
theorem inVertices_of_ones (hall : ones Vs = Vs.length) {v : V} (hv : v ∈ Vs.map Prod.fst) : InVertex Vs σ v := by
  obtain ⟨⟨w, b⟩, hmem, rfl⟩ := List.mem_map.1 hv
  have h := List.countP_eq_length.1 hall (w, b) hmem
  refine ⟨b, hmem, ?_⟩
  cases b with
  | one => rfl
  | zero => exact absurd h Bool.false_ne_true
  | var x => exact absurd h Bool.false_ne_true

variable {adjMap : ℕ → List ℕ}

theorem circuitPosted_iff (hnodup : (Vs.map Prod.fst).Nodup) (hends : Joins Vs Es) (hall : ones Vs = Vs.length)
    (hadj : ∀ I J, J ∈ adjMap I ↔ ∃ u v b, (u, v, b) ∈ Es ∧ num Vs u = I ∧ num Vs v = J) :
    (∃ x, CircuitPosted (checked Vs) Es adjMap σ x) ↔ EdgesAgree Es σ ∧ OneCycle (InEdge Es σ) (inVertices Vs σ) := by
  have himage : (inVertices Vs σ).image (num Vs) = Icc 1 Vs.length := by
    apply Finset.ext
    intro I
    rw [mem_image]
    constructor
    · rintro ⟨v, hv, rfl⟩
      exact num_mem_Icc (mem_inVertices.1 hv).mem
    · intro hI
      obtain ⟨v, b, hmem, rfl⟩ := exists_num hnodup hI
      exact ⟨v, mem_inVertices.2 (inVertices_of_ones hall (List.mem_map.2 ⟨_, hmem, rfl⟩)), rfl⟩
  have hinj : Set.InjOn (num Vs) (inVertices Vs σ) := fun v hv w _ h => num_inj (mem_inVertices.1 hv).mem h
  have hin : ∀ {v}, v ∈ Vs.map Prod.fst → v ∈ inVertices Vs σ := fun hv =>
    mem_inVertices.2 (inVertices_of_ones hall hv)
  have hmem : ∀ u v, InEdge Es σ u v → u ∈ inVertices Vs σ ∧ v ∈ inVertices Vs σ := by
    intro u v h
    exact ⟨hin (h.joins hends).1, hin (h.joins hends).2⟩
  constructor
  · rintro ⟨x, hx⟩
    have hchan : ∀ u v b, (u, v, b) ∈ Es → (x.a (num Vs u) = num Vs v ↔ b.val σ = true) := by
      intro u v b he
      have h := hx.channel u v b he
      rwa [checked_get (hends u v b he).1, checked_get (hends u v b he).2] at h
    have hagree : EdgesAgree Es σ := by
      intro u v b b' he he'
      rw [Bool.eq_iff_iff, ← hchan u v b he, hchan u v b' he']
    refine ⟨hagree, ?_⟩
    have hcyc := hx.circuit
    have hn : (checked Vs).n = Vs.length := rfl
    rw [hn, ← himage] at hcyc
    refine (oneCycle_image hinj hmem ?_ ?_).1 hcyc
    · -- the array follows the edges that are in
      intro u hu v hv
      rw [mem_inVertices] at hu hv
      constructor
      · rintro ⟨-, h⟩
        have hne := hx.neibs (num Vs u) (num_mem_Icc hu.mem)
        obtain ⟨u', v', b, he, hu', hv'⟩ := (hadj _ _).1 hne
        obtain ⟨hum, hvm⟩ := hends u' v' b he
        have hueq := num_inj hum hu'
        have hveq := num_inj hvm (hv'.trans h)
        subst hueq hveq
        exact ⟨b, he, (hchan _ _ _ he).1 h⟩
      · rintro ⟨b, he, hb⟩
        exact ⟨mem_image_of_mem _ (mem_inVertices.2 hu), (hchan u v b he).2 hb⟩
    · rintro a b ⟨ha, rfl⟩
      refine ⟨ha, ?_⟩
      rw [himage] at ha ⊢
      exact hx.dom a ha
  · rintro ⟨hagree, hcyc⟩
    have hnext : ∀ v, ∃ w, v ∈ Vs.map Prod.fst → InEdge Es σ v w := by
      intro v
      by_cases hv : v ∈ Vs.map Prod.fst
      · obtain ⟨w, hw, -⟩ := hcyc.1.out v (hin hv)
        exact ⟨w, fun _ => hw⟩
      · exact ⟨v, fun h => absurd h hv⟩
    choose next hnext using hnext
    obtain ⟨a, ha⟩ := exists_array Vs (fun v => num Vs (next v))
    have hedge : ∀ u v, u ∈ Vs.map Prod.fst → v ∈ Vs.map Prod.fst → (a (num Vs u) = num Vs v ↔ InEdge Es σ u v) := by
      intro u v hu hv
      rw [ha u hu]
      constructor
      · intro h
        have := num_inj ((hnext u hu).joins hends).2 h
        rw [← this]
        exact hnext u hu
      · intro h
        rw [(hcyc.1.out u (hin hu)).unique (hnext u hu) h]
    refine ⟨⟨Vs.length, true, true, a, fun _ _ => false, fun _ => false, fun _ => false, fun _ => false,
      fun _ => 0⟩, rfl, ?_, ?_, ?_, ?_⟩
    · refine forall_num hnodup ?_
      intro v hv
      simp only [ha v hv]
      exact num_mem_Icc ((hnext v hv).joins hends).2
    · refine forall_num hnodup ?_
      intro v hv
      obtain ⟨b, he, -⟩ := hnext v hv
      exact (hadj _ _).2 ⟨v, next v, b, he, rfl, (ha v hv).symm⟩
    · intro u v b he
      obtain ⟨hu, hv⟩ := hends u v b he
      rw [checked_get hu, checked_get hv, hedge u v hu hv]
      exact hagree.inEdge_iff he
    · have hn : (checked Vs).n = Vs.length := rfl
      rw [hn]
      have hset : Icc 1 Vs.length = (inVertices Vs σ).image (num Vs) := himage.symm
      rw [hset]
      refine (oneCycle_image hinj hmem ?_ ?_).2 hcyc
      · intro u hu v hv
        rw [mem_inVertices] at hu hv
        rw [← hedge u v hu.mem hv.mem]
        exact and_iff_right (mem_image_of_mem _ (mem_inVertices.2 hu))
      · rintro i j ⟨hi, rfl⟩
        obtain ⟨u, hu, rfl⟩ := mem_image.1 hi
        refine ⟨mem_image_of_mem _ hu, ?_⟩
        have hum := (mem_inVertices.1 hu).mem
        simp only [ha u hum]
        exact mem_image_of_mem _ (hin ((hnext u hum).joins hends).2)

/-! ## Distances from the start -/

variable {seen : HcpSeen} {x : HcpVars}

section
variable (hnodup : (Vs.map Prod.fst).Nodup) (hends : Joins Vs Es) (hloop : ∀ u v b, (u, v, b) ∈ Es → u ≠ v)
include hnodup hends hloop

omit hnodup hloop in
theorem HcpDegree.h_eq (h : HcpDegree (checked Vs) Es σ x) {u v : V} {b : Boolean ι} (he : (u, v, b) ∈ Es) :
    x.h (num Vs u) (num Vs v) = b.val σ := by
  have hc := h.cell u v b he
  rwa [checked_get (hends u v b he).1, checked_get (hends u v b he).2] at hc

omit hnodup hloop in
theorem HcpDegree.agree (h : HcpDegree (checked Vs) Es σ x) : EdgesAgree Es σ := by
  intro u v b b' he he'
  rw [← h.h_eq hends he, ← h.h_eq hends he']

omit hnodup hloop in
theorem HcpDegree.h_iff (h : HcpDegree (checked Vs) Es σ x) {u v : V} (hu : u ∈ Vs.map Prod.fst)
    (hv : v ∈ Vs.map Prod.fst) : x.h (num Vs u) (num Vs v) = true ↔ InEdge Es σ u v := by
  by_cases hex : ∃ b, (u, v, b) ∈ Es
  · obtain ⟨b, he⟩ := hex
    rw [h.h_eq hends he, (h.agree hends).inEdge_iff he]
  · constructor
    · intro ht
      have hf := h.rest _ (num_mem_Icc hu) _ (num_mem_Icc hv) (by
        rintro u' v' b he ⟨h1, h2⟩
        obtain ⟨hu', hv'⟩ := hends u' v' b he
        rw [checked_get hu'] at h1
        rw [checked_get hv'] at h2
        rw [num_inj hu' h1, num_inj hv' h2] at he
        exact hex ⟨b, he⟩)
      rw [ht] at hf
      exact absurd hf Bool.true_eq_false_eq_False
    · intro hp
      obtain ⟨b, he, -⟩ := hp
      exact absurd ⟨b, he⟩ hex

theorem HcpDegree.linked (h : HcpDegree (checked Vs) Es σ x) (hK : 2 ≤ (inVertices Vs σ).card) :
    Linked (InEdge Es σ) (inVertices Vs σ) := by
  have hk : x.k = (inVertices Vs σ).card := by
    rw [← count_toArray hnodup]
    exact h.sum.symm
  have hGt1 : x.kGt1 = true := by
    have hkGt := h.kGt
    split_ifs at hkGt
    · exact hkGt.2
    · exact hkGt.2.1.2 (by omega)
  have hends' : ∀ u v, InEdge Es σ u v → InVertex Vs σ u ∧ InVertex Vs σ v := by
    rintro u v ⟨b, he, hb⟩
    obtain ⟨hu, hv⟩ := hends u v b he
    have hne : num Vs u ≠ num Vs v := fun heq => hloop u v b he (num_inj hu heq)
    have hc := h.ends u v b he
    rw [checked_get hu, checked_get hv] at hc
    have hA := hc hne hb
    exact ⟨(toArray_num_iff hnodup hu).1 hA.1, (toArray_num_iff hnodup hv).1 hA.2⟩
  have htmp : ∀ v, InVertex Vs σ v → x.tmpB (num Vs v) = true := by
    intro v hv
    rcases h.tmpB (num Vs v) (num_mem_Icc hv.mem) with ht | ha | hk
    · exact ht
    · have := (toArray_num_iff hnodup hv.mem).2 hv
      rw [show (checked Vs).bs = Vs.map Prod.snd from rfl, this] at ha
      exact absurd ha Bool.true_eq_false_eq_False
    · rw [hGt1] at hk
      exact absurd hk Bool.true_eq_false_eq_False
  refine ⟨?_, ?_, ?_⟩
  · intro u v he
    exact ⟨mem_inVertices.2 (hends' u v he).1, mem_inVertices.2 (hends' u v he).2⟩
  · intro u hu
    rw [mem_inVertices] at hu
    obtain ⟨J, ⟨hJ, hh⟩, huniq⟩ := count_eq_one.1 (h.out _ (num_mem_Icc hu.mem) (htmp u hu))
    obtain ⟨v, b, hmem, rfl⟩ := exists_num hnodup (mem_filter.1 hJ).1
    have hv : v ∈ Vs.map Prod.fst := List.mem_map.2 ⟨_, hmem, rfl⟩
    refine ⟨v, (h.h_iff hends hu.mem hv).1 hh, ?_⟩
    intro w hw
    obtain ⟨b', he, -⟩ := id hw
    have hwm := (hw.joins hends).2
    refine num_inj hwm (huniq _ ⟨mem_filter.2 ⟨num_mem_Icc hwm, ?_⟩, (h.h_iff hends hu.mem hwm).2 hw⟩)
    exact fun heq => hloop u w b' he (num_inj hwm heq).symm
  · intro v hv
    rw [mem_inVertices] at hv
    obtain ⟨J, ⟨hJ, hh⟩, huniq⟩ := count_eq_one.1 (h.into _ (num_mem_Icc hv.mem) (htmp v hv))
    obtain ⟨u, b, hmem, rfl⟩ := exists_num hnodup (mem_filter.1 hJ).1
    have hu : u ∈ Vs.map Prod.fst := List.mem_map.2 ⟨_, hmem, rfl⟩
    refine ⟨u, (h.h_iff hends hu hv.mem).1 hh, ?_⟩
    intro w hw
    obtain ⟨b', he, -⟩ := id hw
    have hwm := (hw.joins hends).1
    refine num_inj hwm (huniq _ ⟨mem_filter.2 ⟨num_mem_Icc hwm, ?_⟩, (h.h_iff hends hwm hv.mem).2 hw⟩)
    exact fun heq => hloop w v b' he (num_inj hwm heq)

theorem hcpDist_sound (hadj : ∀ I J, J ∈ adjMap I ↔ ∃ u v b, (u, v, b) ∈ Es ∧ num Vs u = I ∧ num Vs v = J)
    (hdegree : HcpDegree (checked Vs) Es σ x)
    (hstart : hcpSccChooseStart Vs.length (toArray (Vs.map Prod.snd) σ) x.kGt1 (ones Vs) seen.one x.start x.hasStarted)
    (hdist : HcpDistances (checked Vs) adjMap x seen.zero)
    (hone : ∀ I ∈ Icc 1 Vs.length, seen.one I = true → toArray (Vs.map Prod.snd) σ I = true)
    (hzero : ∀ I ∈ Icc 1 Vs.length, ∀ J ∈ Icc 1 Vs.length, seen.zero I J = true → x.h I J = false)
    (hK : 2 ≤ (inVertices Vs σ).card) : OneCycle (InEdge Es σ) (inVertices Vs σ) := by
  have hlink := hdegree.linked hnodup hends hloop hK
  obtain ⟨w, hw⟩ : (inVertices Vs σ).Nonempty := card_pos.1 (by omega)
  have hw' := mem_inVertices.1 hw
  obtain ⟨J, hJ, hsJ⟩ := chooseStart_exists hstart (num_mem_Icc hw'.mem) ((toArray_num_iff hnodup hw'.mem).2 hw')
  obtain ⟨s, b, hmem, rfl⟩ := exists_num hnodup hJ
  have hs : s ∈ Vs.map Prod.fst := List.mem_map.2 ⟨_, hmem, rfl⟩
  have hsin : InVertex Vs σ s := (toArray_num_iff hnodup hs).1 (chooseStart_out hstart hone hJ hsJ)
  refine hlink.oneCycle_of_rank (mem_inVertices.2 hsin) (fun v => x.distA (num Vs v)) (· + 1) ?_ ?_
  · intro u v huv hne
    obtain ⟨hu, hv⟩ := huv.joins hends
    have hh := (hdegree.h_iff hends hu hv).2 huv
    refine hdist.step _ (num_mem_Icc hu) _ ?_ ?_ ?_ hh
    · obtain ⟨b', he, -⟩ := huv
      exact (hadj _ _).2 ⟨u, v, b', he, rfl, rfl⟩
    · by_contra hz
      rw [Bool.not_eq_false] at hz
      rw [hzero _ (num_mem_Icc hu) _ (num_mem_Icc hv) hz] at hh
      exact Bool.false_ne_true hh
    · by_contra hsv
      rw [Bool.not_eq_false] at hsv
      exact hne (num_inj hv (chooseStart_unique hstart (num_mem_Icc hv) hJ hsv hsJ))
  · intro u _ p hp _
    have hiter : ∀ n d : ℕ, (· + 1)^[n] d = d + n := by
      intro n d
      induction n generalizing d with
      | zero => rfl
      | succ n ih =>
        rw [Function.iterate_succ_apply, ih]
        omega
    rw [hiter]
    omega

omit hnodup hends hloop in
def hcpValues (Vs : List (V × Boolean ι)) (Es : List (V × V × Boolean ι)) (σ : ι → Bool) (s : ℕ) (hasStarted : ℕ → Bool)
    (d : ℕ → ℕ) : HcpVars where
  k := (inVertices Vs σ).card
  kGt1 := decide (1 < (inVertices Vs σ).card)
  kGt2 := decide (2 < (inVertices Vs σ).card)
  a := fun _ => 0
  h := fun I J => Es.any fun e => decide (num Vs e.1 = I) && decide (num Vs e.2.1 = J) && e.2.2.val σ
  tmpB := toArray (Vs.map Prod.snd) σ
  start := fun I => decide (I = s)
  hasStarted := hasStarted
  distA := d

omit hnodup hends hloop in
theorem hcpValues_h {s : ℕ} {hasStarted : ℕ → Bool} {d : ℕ → ℕ} {I J : ℕ} :
    (hcpValues Vs Es σ s hasStarted d).h I J = true ↔ ∃ u v, InEdge Es σ u v ∧ num Vs u = I ∧ num Vs v = J := by
  unfold hcpValues InEdge
  simp only [List.any_eq_true, Bool.and_eq_true, decide_eq_true_eq, Prod.exists]
  constructor
  · intro hp
    obtain ⟨u, v, b, he, ⟨hu, hv⟩, hb⟩ := hp
    exact ⟨u, v, ⟨b, he, hb⟩, hu, hv⟩
  · intro hp
    obtain ⟨u, v, ⟨b, he, hb⟩, hu, hv⟩ := hp
    exact ⟨u, v, b, he, ⟨hu, hv⟩, hb⟩

omit hnodup hloop in
theorem hcpValues_h_num {s : ℕ} {hasStarted : ℕ → Bool} {d : ℕ → ℕ} {u v : V} :
    (hcpValues Vs Es σ s hasStarted d).h (num Vs u) (num Vs v) = true ↔ InEdge Es σ u v := by
  rw [hcpValues_h]
  constructor
  · intro hp
    obtain ⟨u', v', he, hu, hv⟩ := hp
    rw [← num_inj (he.joins hends).1 hu, ← num_inj (he.joins hends).2 hv]
    exact he
  · intro he
    exact ⟨u, v, he, rfl, rfl⟩

theorem hcpValues_degree (hagree : EdgesAgree Es σ) (hlink : Linked (InEdge Es σ) (inVertices Vs σ)) {s : ℕ}
    {hasStarted : ℕ → Bool} {d : ℕ → ℕ} : HcpDegree (checked Vs) Es σ (hcpValues Vs Es σ s hasStarted d) := by
  have hones := @ones_le_card _ _ _ _ σ hnodup
  have hzeros := @card_add_zeros_le _ _ _ _ σ hnodup
  have hne : ∀ {u v}, InEdge Es σ u v → num Vs v ≠ num Vs u := by
    intro u v he heq
    obtain ⟨b, hmem, -⟩ := id he
    exact hloop u v b hmem (num_inj (he.joins hends).2 heq).symm
  have hin : ∀ {I}, I ∈ Icc 1 Vs.length → toArray (Vs.map Prod.snd) σ I = true →
      ∃ v, v ∈ inVertices Vs σ ∧ num Vs v = I := by
    intro I hI hA
    obtain ⟨v, b, hmem, rfl⟩ := exists_num hnodup hI
    have hv : v ∈ Vs.map Prod.fst := List.mem_map.2 ⟨_, hmem, rfl⟩
    exact ⟨v, mem_inVertices.2 ((toArray_num_iff hnodup hv).1 hA), rfl⟩
  refine ⟨⟨hones, ?_⟩, count_toArray hnodup, ?_, ?_, ?_, ?_, ?_, ?_, ?_⟩
  · exact le_trans (Nat.le_sub_of_add_le hzeros) (le_max_left _ _)
  · have hmin : (checked Vs).minK = ones Vs := rfl
    rw [hmin]
    unfold hcpValues
    simp only [decide_eq_true_eq]
    split_ifs
    · exact ⟨by omega, by omega⟩
    · exact ⟨trivial, trivial, fun h => by omega⟩
  · intro u v b he
    obtain ⟨hu, hv⟩ := hends u v b he
    rw [checked_get hu, checked_get hv, Bool.eq_iff_iff, hcpValues_h_num hends]
    exact hagree.inEdge_iff he
  · intro u v b he _ hb
    obtain ⟨hu, hv⟩ := hends u v b he
    obtain ⟨huS, hvS⟩ := hlink.mem u v ⟨b, he, hb⟩
    rw [checked_get hu, checked_get hv]
    exact ⟨(toArray_num_iff hnodup hu).2 (mem_inVertices.1 huS), (toArray_num_iff hnodup hv).2 (mem_inVertices.1 hvS)⟩
  · intro I _ J _ hno
    rw [← Bool.not_eq_true, hcpValues_h]
    intro hp
    obtain ⟨u, v, ⟨b, he, -⟩, rfl, rfl⟩ := hp
    obtain ⟨hu, hv⟩ := hends u v b he
    exact hno u v b he ⟨checked_get hu, checked_get hv⟩
  · intro I _
    cases hA : toArray (checked Vs).bs σ I with
    | true => exact .inl hA
    | false => exact .inr (.inl rfl)
  · intro I hI hA
    obtain ⟨u, hu, rfl⟩ := hin hI hA
    obtain ⟨v, hv, huniq⟩ := hlink.out u hu
    refine count_eq_one.2 ⟨num Vs v, ⟨mem_filter.2 ⟨num_mem_Icc (hv.joins hends).2, hne hv⟩,
      (hcpValues_h_num hends).2 hv⟩, ?_⟩
    rintro J ⟨-, hJ⟩
    obtain ⟨u', w, hw, hu', rfl⟩ := hcpValues_h.1 hJ
    rw [num_inj (hw.joins hends).1 hu'] at hw
    rw [huniq w hw]
  · intro I hI hA
    obtain ⟨v, hv, rfl⟩ := hin hI hA
    obtain ⟨u, hu, huniq⟩ := hlink.into v hv
    refine count_eq_one.2 ⟨num Vs u, ⟨mem_filter.2 ⟨num_mem_Icc (hu.joins hends).1, Ne.symm (hne hu)⟩,
      (hcpValues_h_num hends).2 hu⟩, ?_⟩
    rintro J ⟨-, hJ⟩
    obtain ⟨w, v', hw, rfl, hv'⟩ := hcpValues_h.1 hJ
    rw [num_inj (hw.joins hends).2 hv'] at hw
    rw [huniq w hw]

theorem exists_hcpDist (hagree : EdgesAgree Es σ) (hcyc : OneCycle (InEdge Es σ) (inVertices Vs σ))
    (hone : ∀ x, HcpDegree (checked Vs) Es σ x →
      ∀ I ∈ Icc 1 Vs.length, seen.one I = true → toArray (Vs.map Prod.snd) σ I = true)
    (hK : 2 ≤ (inVertices Vs σ).card) :
    ∃ x, HcpDegree (checked Vs) Es σ x ∧
      hcpSccChooseStart Vs.length (toArray (Vs.map Prod.snd) σ) x.kGt1 (ones Vs) seen.one x.start x.hasStarted ∧
      HcpDistances (checked Vs) adjMap x seen.zero := by
  have hdegree := @hcpValues_degree _ _ _ _ _ _ hnodup hends hloop hagree hcyc.1
  have hseen := hone _ (@hdegree 0 (fun _ => false) fun _ => 0)
  obtain ⟨w, hw⟩ : (inVertices Vs σ).Nonempty := card_pos.1 (by omega)
  have hw' := mem_inVertices.1 hw
  obtain ⟨J, hJ, hA, hasStarted, hstart⟩ := exists_chooseStart
    (ones Vs) (decide (1 < (inVertices Vs σ).card)) hseen (num_mem_Icc hw'.mem)
    ((toArray_num_iff hnodup hw'.mem).2 hw') (by rw [count_toArray hnodup]; exact ones_le_card hnodup)
  obtain ⟨s, b, hmem, rfl⟩ := exists_num hnodup hJ
  have hs : s ∈ Vs.map Prod.fst := List.mem_map.2 ⟨_, hmem, rfl⟩
  have hsS : s ∈ inVertices Vs σ := mem_inVertices.2 ((toArray_num_iff hnodup hs).1 hA)
  obtain ⟨pos, hpos0, hlt, hstep, -⟩ := hcyc.exists_position hsS
  obtain ⟨d, hd⟩ := exists_array Vs (fun v => if v ∈ inVertices Vs σ then pos v else 0)
  refine ⟨hcpValues Vs Es σ (num Vs s) hasStarted d, hdegree, hstart, ?_, ?_, ?_, ?_⟩
  · refine forall_num hnodup ?_
    intro v hv
    have hmax := @hdegree 0 (fun _ => false) fun _ => 0
    have hle : (inVertices Vs σ).card ≤ (checked Vs).maxK := hmax.dom.2
    have hval : (hcpValues Vs Es σ (num Vs s) hasStarted d).distA (num Vs v) =
      if v ∈ inVertices Vs σ then pos v else 0 := hd v hv
    rw [hval]
    split_ifs with hvS
    · have := hlt v hvS
      omega
    · exact Nat.zero_le _
  · intro I _ hI
    have hIs : I = num Vs s := of_decide_eq_true hI
    rw [hIs]
    refine (hd s hs).trans ?_
    rw [if_pos hsS, hpos0]
  · intro I _ J _ _ _
    by_contra hno
    push Not at hno
    obtain ⟨h2, hIJ, hJI⟩ := hno
    rw [Ne, Bool.not_eq_false] at hIJ hJI h2
    obtain ⟨u, v, huv, rfl, rfl⟩ := hcpValues_h.1 hIJ
    have hvu := (hcpValues_h_num hends).1 hJI
    have htwo := hcyc.card_le_two huv hvu
    have hgt : 2 < (inVertices Vs σ).card := of_decide_eq_true h2
    omega
  · intro I _ J _ _ hsJ hIJ
    obtain ⟨u, v, huv, rfl, rfl⟩ := hcpValues_h.1 hIJ
    obtain ⟨hu, hv⟩ := huv.joins hends
    obtain ⟨huS, hvS⟩ := hcyc.1.mem u v huv
    have hne : v ≠ s := by
      rintro rfl
      exact of_decide_eq_false hsJ rfl
    have hval : ∀ w ∈ Vs.map Prod.fst, (hcpValues Vs Es σ (num Vs s) hasStarted d).distA (num Vs w) =
      if w ∈ inVertices Vs σ then pos w else 0 := hd
    rw [hval u hu, hval v hv, if_pos huS, if_pos hvS]
    exact hstep u v huv hne

/-- With two vertices in or more, the constraints have a solution just when the edges that are in are one cycle
through the vertices that are in. -/
theorem hcp_iff (seen : HcpSeen) (hseen : ∀ r adjMap, hcpCheck Vs Es = .ok (r, adjMap) → seen.Sound r Es adjMap)
    (σ : ι → Bool) (hK : 2 ≤ (inVertices Vs σ).card) :
    (∃ x, hcp Vs Es seen σ x) ↔ EdgesAgree Es σ ∧ OneCycle (InEdge Es σ) (inVertices Vs σ) := by
  obtain ⟨adjMap, hok, hadj⟩ := hcpCheck_spec hnodup hends
  have hsound := hseen _ _ hok
  unfold hcp
  simp only [hok]
  unfold hcpAux
  by_cases hall : (checked Vs).minK = (checked Vs).n
  · simp only [if_pos hall]
    exact circuitPosted_iff hnodup hends hall hadj
  · simp only [if_neg hall]
    constructor
    · intro h
      obtain ⟨x, hdegree, hstart, hdist⟩ := h
      refine ⟨hdegree.agree hends, ?_⟩
      refine hcpDist_sound hnodup hends hloop hadj hdegree hstart hdist (hsound.one σ x hdegree) ?_ hK
      apply hsound.zero σ x
      unfold hcpAux
      rw [if_neg hall]
      exact ⟨hdegree, hstart, hdist⟩
    · intro h
      obtain ⟨hagree, hcyc⟩ := h
      exact exists_hcpDist hnodup hends hloop hagree hcyc (hsound.one σ) hK

end

end

/-! ## There and back, and an edge listed twice -/

def nothingSeen : HcpSeen := ⟨fun _ => false, fun _ _ => false⟩

omit [DecidableEq V] in
theorem nothingSeen_sound (r : CheckedVs V ι) (Es : List (V × V × Boolean ι)) (adjMap : ℕ → List ℕ) :
    nothingSeen.Sound r Es adjMap :=
  ⟨fun _ _ _ _ _ h => absurd h Bool.false_ne_true, fun _ _ _ _ _ _ _ h => absurd h Bool.false_ne_true⟩

def pairVs : List (ℕ × Boolean ℕ) := [(0, .one), (1, .var 0), (2, .var 1)]

def pairEs : List (ℕ × ℕ × Boolean ℕ) := [(0, 1, .var 2), (1, 0, .var 3), (1, 2, .var 4)]

def pairIn (i : ℕ) : Bool := decide (i = 0) || decide (i = 2) || decide (i = 3)

theorem inVertices_pair : inVertices pairVs pairIn = {0, 1} := by decide

theorem oneCycle_pair {E : ℕ → ℕ → Prop} (hE : ∀ u v, E u v ↔ (u = 0 ∧ v = 1) ∨ (u = 1 ∧ v = 0)) :
    OneCycle E {0, 1} := by
  refine ⟨⟨?_, ?_, ?_⟩, ?_⟩
  · intro u v h
    rcases (hE u v).1 h with ⟨rfl, rfl⟩ | ⟨rfl, rfl⟩ <;> decide
  · intro u hu
    simp only [mem_insert, mem_singleton] at hu
    refine ⟨1 - u, (hE _ _).2 (by omega), ?_⟩
    intro v hv
    have := (hE _ _).1 hv
    omega
  · intro v hv
    simp only [mem_insert, mem_singleton] at hv
    refine ⟨1 - v, (hE _ _).2 (by omega), ?_⟩
    intro u hu
    have := (hE _ _).1 hu
    omega
  · intro u hu v hv
    simp only [mem_insert, mem_singleton] at hu hv
    by_cases huv : u = v
    · rw [huv]
    · exact Relation.ReflTransGen.single ((hE u v).2 (by omega))

theorem inEdge_pair (u v : ℕ) : InEdge pairEs pairIn u v ↔ (u = 0 ∧ v = 1) ∨ (u = 1 ∧ v = 0) := by
  rw [inEdge_iff]
  simp only [pairEs, List.mem_cons, List.not_mem_nil, or_false, exists_eq_or_imp, exists_eq_left, Boolean.val, pairIn]
  simp
  omega

theorem hcp_iff_pair : ∃ x, hcp pairVs pairEs nothingSeen pairIn x := by
  refine (hcp_iff (by decide) ?_ ?_ nothingSeen (fun r adjMap _ => nothingSeen_sound r _ adjMap) _ ?_).2 ⟨?_, ?_⟩
  · intro u v b h
    simp only [pairEs, List.mem_cons, Prod.mk.injEq, List.not_mem_nil, or_false] at h
    rcases h with ⟨rfl, rfl, -⟩ | ⟨rfl, rfl, -⟩ | ⟨rfl, rfl, -⟩ <;> decide
  · intro u v b h
    simp only [pairEs, List.mem_cons, Prod.mk.injEq, List.not_mem_nil, or_false] at h
    omega
  · rw [inVertices_pair]
    decide
  · intro u v b b' h h'
    simp only [pairEs, List.mem_cons, Prod.mk.injEq, List.not_mem_nil, or_false] at h h'
    rcases h with ⟨rfl, rfl, rfl⟩ | ⟨rfl, rfl, rfl⟩ | ⟨rfl, rfl, rfl⟩ <;> simp_all
  · rw [inVertices_pair]
    exact oneCycle_pair inEdge_pair

def twiceEs : List (ℕ × ℕ × Boolean ℕ) := (0, 1, .var 4) :: pairEs

/-- The edges that are in are one cycle, and there is no solution: an edge listed twice has one value. -/
theorem hcp_edge_twice :
    2 ≤ (inVertices pairVs pairIn).card ∧ OneCycle (InEdge twiceEs pairIn) (inVertices pairVs pairIn) ∧
      ∀ x, ¬ hcp pairVs twiceEs nothingSeen pairIn x := by
  refine ⟨by decide, ?_, ?_⟩
  · rw [inVertices_pair]
    apply oneCycle_pair
    intro u v
    rw [← inEdge_pair, inEdge_iff, inEdge_iff, twiceEs]
    simp [pairIn, Boolean.val]
  · intro x hx
    have hends : Joins pairVs twiceEs := by
      intro u v b h
      simp only [twiceEs, pairEs, List.mem_cons, Prod.mk.injEq, List.not_mem_nil, or_false] at h
      rcases h with ⟨rfl, rfl, -⟩ | ⟨rfl, rfl, -⟩ | ⟨rfl, rfl, -⟩ | ⟨rfl, rfl, -⟩ <;> decide
    obtain ⟨adjMap, hok, -⟩ := hcpCheck_spec (by decide) hends
    unfold hcp at hx
    simp only [hok] at hx
    unfold hcpAux at hx
    rw [if_neg (by decide)] at hx
    have h := hx.1.agree hends 0 1 (.var 4) (.var 2) (by decide) (by decide)
    exact absurd h (by decide)

end Picat.Graph
