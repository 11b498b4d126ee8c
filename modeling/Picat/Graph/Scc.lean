import Picat.Graph.Hcp
import Picat.Lib.LeafTimes

/-!
# `scc`: the vertices that are in are connected

* `UEdge` : an edge in one orientation or the other; `PairsAgree` : the entries of one pair have one value.
-/

namespace Picat.Graph
open Finset Function List

variable {V ι : Type} [DecidableEq V]

/-- What `scc_check_es` leaves: unified Booleans, the edges posted, and `AdjMap`. -/
structure SccEdges (ι : Type) where
  equal : List (Boolean ι × Boolean ι)
  first : List (ℕ × ℕ × Boolean ι)
  adjMap : ℕ → List (ℕ × Boolean ι)

/-- `EMap.put((V1,V2),B), EMap.put((V2,V1),B)`. -/
def putBoth (eMap : V → V → Option (Boolean ι)) (v1 v2 : V) (b : Boolean ι) : V → V → Option (Boolean ι) :=
  fun u w => if (u = v2 ∧ w = v1) ∨ (u = v1 ∧ w = v2) then some b else eMap u w

def sccCheckEs (vNumMap : V → Option ℕ) :
    List (V × V × Boolean ι) → (V → V → Option (Boolean ι)) → (ℕ → List (ℕ × Boolean ι)) →
      Except (GraphError V) (SccEdges ι)
  | [], _, adjMap => .ok ⟨[], [], adjMap⟩
  | (v1, v2, b) :: es, eMap, adjMap =>
    match eMap v1 v2 with
    | some b0 =>
      match sccCheckEs vNumMap es eMap adjMap with
      | .error e => .error e
      | .ok r => .ok { r with equal := (b0, b) :: r.equal }
    | none =>
      match vNumMap v1 with
      | none => .error (.unknownVertexName v1)
      | some i1 =>
        match vNumMap v2 with
        | none => .error (.unknownVertexName v2)
        | some i2 =>
          let adjMap1 := update adjMap i1 ((i2, b) :: adjMap i1)
          let adjMap2 := update adjMap1 i2 ((i1, b) :: adjMap1 i2)
          match sccCheckEs vNumMap es (putBoth eMap v1 v2 b) adjMap2 with
          | .error e => .error e
          | .ok r => .ok { r with first := (i1, i2, b) :: r.first }

/-- The variables that are made on the way; `par I J` says that `J` is the parent of `I`. -/
structure SccVars where
  k : ℕ
  kGt1 : Bool
  start : ℕ → Bool
  hasStarted : ℕ → Bool
  distA : ℕ → ℕ
  par : ℕ → ℕ → Bool

structure SccSeen where
  one : ℕ → Bool
  zero : ℕ → Bool
  start : ℕ → Bool

section
variable (r : CheckedVs V ι) (es : SccEdges ι) (σ : ι → Bool) (x : SccVars)

structure SccEdgesPosted : Prop where
  sum : count (Icc 1 r.n) (toArray r.bs σ) = x.k
  equal : ∀ p ∈ es.equal, p.1.val σ = p.2.val σ
  oneWay : ∀ i1 i2 b, (i1, i2, b) ∈ es.first → x.par i2 i1 = false ∨ x.par i1 i2 = false
  parent : ∀ i1 i2 b, (i1, i2, b) ∈ es.first → (x.par i2 i1 = true → b.val σ = true) ∧
    (x.par i1 i2 = true → b.val σ = true)
  ends : ∀ i1 i2 b, (i1, i2, b) ∈ es.first → b.val σ = true → toArray r.bs σ i1 = true ∧ toArray r.bs σ i2 = true
  dom : r.minK ≤ x.k ∧ x.k ≤ r.maxK
  kGt : if 1 < r.minK then x.kGt1 = true else (x.kGt1 = true ↔ 1 < x.k)

/-- `sum([P : {_,_,P} in Neibs])`. -/
def sumParents (I : ℕ) : ℕ := (es.adjMap I).countP fun p => x.par I p.1

def sccVertex (seenZero seenStart : Bool) (I : ℕ) : Prop :=
  if seenZero then x.distA I = 0
  else if seenStart then
    x.distA I = 0 ∧ ∀ J B, (J, B) ∈ es.adjMap I →
      (B.val σ = true → x.distA J = 1) ∧ (B.val σ = true → toArray r.bs σ J = true) ∧ x.par I J = false
  else
    (x.start I = true → x.distA I = 0) ∧ (x.start I = true → sumParents es x I = 0) ∧
    (x.start I = false → toArray r.bs σ I = true → sumParents es x I = 1) ∧
    ∀ J B, (J, B) ∈ es.adjMap I → x.par I J = true → x.distA I = x.distA J + 1

structure SccStarted (seen : SccSeen) : Prop where
  edges : SccEdgesPosted r es σ x
  start : hcpSccChooseStart r.n (toArray r.bs σ) x.kGt1 r.minK seen.one x.start x.hasStarted
  dom : ∀ I ∈ Icc 1 r.n, x.distA I ≤ r.maxK - 1

def sccAux (seen : SccSeen) : Prop :=
  SccStarted r es σ x seen ∧ ∀ I ∈ Icc 1 r.n, sccVertex r es σ x (seen.zero I) (seen.start I) I

/-- What the solver has bound holds in every solution of what was posted up to there. -/
structure SccSeen.Sound (seen : SccSeen) : Prop where
  one : ∀ σ x, SccEdgesPosted r es σ x → ∀ I ∈ Icc 1 r.n, seen.one I = true → toArray r.bs σ I = true
  vertex : ∀ σ x, SccStarted r es σ x seen → ∀ I ∈ Icc 1 r.n,
    (∀ J ∈ Icc 1 r.n, J < I → sccVertex r es σ x (seen.zero J) (seen.start J) J) →
    (seen.zero I = true → toArray r.bs σ I = false) ∧ (seen.start I = true → x.start I = true)

end

/-- The checks of the two lists; `HasStarted[N]` does not exist without vertices. -/
def sccCheck (Vs : List (V × Boolean ι)) (Es : List (V × V × Boolean ι)) :
    Except (GraphError V) (CheckedVs V ι × SccEdges ι) :=
  match hcpSccCheckVs Vs 1 (fun _ => none) 0 0 with
  | .error e => .error e
  | .ok r =>
    match sccCheckEs r.vNumMap Es (fun _ _ => none) (fun _ => []) with
    | .error e => .error e
    | .ok es => if r.n = 0 then .error .outOfBounds else .ok (r, es)

def scc (Vs : List (V × Boolean ι)) (Es : List (V × V × Boolean ι)) (seen : SccSeen) (σ : ι → Bool) (x : SccVars) :
    Prop :=
  match sccCheck Vs Es with
  | .error _ => False
  | .ok (r, es) => sccAux r es σ x seen

/-! ## The edges -/

def UEdge (Es : List (V × V × Boolean ι)) (σ : ι → Bool) (u v : V) : Prop := InEdge Es σ u v ∨ InEdge Es σ v u

/-- An entry of the pair `u`, `v`, in one orientation or the other. -/
def Listed (Es : List (V × V × Boolean ι)) (u v : V) (b : Boolean ι) : Prop := (u, v, b) ∈ Es ∨ (v, u, b) ∈ Es

def PairsAgree (Es : List (V × V × Boolean ι)) (σ : ι → Bool) : Prop :=
  ∀ u v b b', Listed Es u v b → Listed Es u v b' → b.val σ = b'.val σ

section
variable {Vs : List (V × Boolean ι)} {Es : List (V × V × Boolean ι)} {σ : ι → Bool}

/-- What `EMap` and `AdjMap` know of the entries so far. -/
structure EdgeMaps (Vs : List (V × Boolean ι)) (eMap : V → V → Option (Boolean ι))
    (adjMap : ℕ → List (ℕ × Boolean ι)) : Prop where
  symm : ∀ u v, eMap u v = eMap v u
  adj : ∀ I J b, (J, b) ∈ adjMap I ↔ ∃ u v, eMap u v = some b ∧ num Vs u = I ∧ num Vs v = J
  nodup : ∀ I, ((adjMap I).map Prod.fst).Nodup
  mem : ∀ u v b, eMap u v = some b → u ∈ Vs.map Prod.fst

theorem EdgeMaps.start : EdgeMaps Vs (fun _ _ => (none : Option (Boolean ι))) (fun _ => []) :=
  ⟨fun _ _ => rfl, by simp, by simp, by simp⟩

omit [DecidableEq V] in
theorem adjMap_put (adjMap : ℕ → List (ℕ × Boolean ι)) {i1 i2 : ℕ} (b : Boolean ι) (hne : i2 ≠ i1) (I : ℕ) :
    update (update adjMap i1 ((i2, b) :: adjMap i1)) i2 ((i1, b) :: update adjMap i1 ((i2, b) :: adjMap i1) i2) I =
      if I = i2 then (i1, b) :: adjMap i2 else if I = i1 then (i2, b) :: adjMap i1 else adjMap I := by
  split_ifs with h2 h1
  · rw [h2, update_self, update_of_ne hne]
  · rw [update_of_ne h2, h1, update_self]
  · rw [update_of_ne h2, update_of_ne h1]

theorem putBoth_eq_some {eMap : V → V → Option (Boolean ι)} {v1 v2 u v : V} {b b' : Boolean ι}
    (h12 : eMap v1 v2 = none) (h21 : eMap v2 v1 = none) :
    putBoth eMap v1 v2 b u v = some b' ↔ (b = b' ∧ ((u = v2 ∧ v = v1) ∨ (u = v1 ∧ v = v2))) ∨ eMap u v = some b' := by
  unfold putBoth
  split_ifs with hc
  · rw [Option.some.injEq]
    constructor
    · intro h
      exact .inl ⟨h, hc⟩
    · rintro (h | h)
      · exact h.1
      · rcases hc with ⟨rfl, rfl⟩ | ⟨rfl, rfl⟩
        · rw [h21] at h
          exact absurd h (Option.some_ne_none _).symm
        · rw [h12] at h
          exact absurd h (Option.some_ne_none _).symm
  · constructor
    · exact .inr
    · rintro (h | h)
      · exact absurd h.2 hc
      · exact h

theorem EdgeMaps.put {eMap : V → V → Option (Boolean ι)} {adjMap : ℕ → List (ℕ × Boolean ι)}
    (h : EdgeMaps Vs eMap adjMap) {v1 v2 : V} (b : Boolean ι) (hnone : eMap v1 v2 = none)
    (hv1 : v1 ∈ Vs.map Prod.fst) (hv2 : v2 ∈ Vs.map Prod.fst) (hne : v1 ≠ v2) :
    EdgeMaps Vs (putBoth eMap v1 v2 b)
      (update (update adjMap (num Vs v1) ((num Vs v2, b) :: adjMap (num Vs v1))) (num Vs v2) ((num Vs v1, b) ::
          update adjMap (num Vs v1) ((num Vs v2, b) :: adjMap (num Vs v1)) (num Vs v2))) := by
  have hnum : num Vs v2 ≠ num Vs v1 := fun heq => hne (num_inj hv2 heq).symm
  have hnone' : eMap v2 v1 = none := by
    rw [h.symm]
    exact hnone
  -- the pair is not in the maps, under its numbers either
  have hfresh : ∀ u v, num Vs u = num Vs v1 → num Vs v = num Vs v2 → eMap u v = none := by
    intro u v hu hv
    rw [num_inj hv1 hu.symm, num_inj hv2 hv.symm] at hnone
    exact hnone
  refine ⟨?_, ?_, ?_, ?_⟩
  · intro u v
    unfold putBoth
    rw [h.symm u v]
    congr 1
    exact propext ⟨by tauto, by tauto⟩
  · intro I J b'
    rw [adjMap_put adjMap b hnum I]
    simp only [putBoth_eq_some hnone hnone', or_and_right, exists_or, ← h.adj I J b']
    split_ifs with h2 h1
    · subst h2
      rw [List.mem_cons, Prod.mk.injEq]
      refine or_congr_left ⟨?_, ?_⟩
      · intro hp
        obtain ⟨rfl, rfl⟩ := hp
        exact ⟨v2, v1, ⟨rfl, .inl ⟨rfl, rfl⟩⟩, rfl, rfl⟩
      · intro hp
        obtain ⟨u, v, ⟨rfl, ⟨rfl, rfl⟩ | ⟨rfl, rfl⟩⟩, hu, rfl⟩ := hp
        · exact ⟨rfl, rfl⟩
        · exact absurd hu.symm hnum
    · subst h1
      rw [List.mem_cons, Prod.mk.injEq]
      refine or_congr_left ⟨?_, ?_⟩
      · intro hp
        obtain ⟨rfl, rfl⟩ := hp
        exact ⟨v1, v2, ⟨rfl, .inr ⟨rfl, rfl⟩⟩, rfl, rfl⟩
      · intro hp
        obtain ⟨u, v, ⟨rfl, ⟨rfl, rfl⟩ | ⟨rfl, rfl⟩⟩, hu, rfl⟩ := hp
        · exact absurd hu hnum
        · exact ⟨rfl, rfl⟩
    · rw [or_iff_right]
      intro hp
      obtain ⟨u, v, ⟨rfl, ⟨rfl, rfl⟩ | ⟨rfl, rfl⟩⟩, hu, -⟩ := hp
      · exact h2 hu.symm
      · exact h1 hu.symm
  · intro I
    rw [adjMap_put adjMap b hnum I]
    have hnotin : ∀ {w1 w2 : V}, (∀ u v, num Vs u = num Vs w1 → num Vs v = num Vs w2 → eMap u v = none) →
        num Vs w2 ∉ (adjMap (num Vs w1)).map Prod.fst := by
      intro w1 w2 hf hmem
      obtain ⟨⟨J, b'⟩, hmem, rfl⟩ := List.mem_map.1 hmem
      obtain ⟨u, v, hb', hu, hv⟩ := (h.adj _ _ _).1 hmem
      rw [hf u v hu hv] at hb'
      exact Option.some_ne_none _ hb'.symm
    split_ifs with h2 h1
    · rw [List.map_cons, List.nodup_cons]
      refine ⟨hnotin ?_, h.nodup _⟩
      intro u v hu hv
      rw [h.symm]
      exact hfresh v u hv hu
    · rw [List.map_cons, List.nodup_cons]
      exact ⟨hnotin hfresh, h.nodup _⟩
    · exact h.nodup I
  · intro u v b' hb
    rcases (putBoth_eq_some hnone hnone').1 hb with ⟨-, ⟨rfl, -⟩ | ⟨rfl, -⟩⟩ | hb
    · exact hv2
    · exact hv1
    · exact h.mem u v b' hb

/-- What `scc_check_es` leaves, over a final `EMap`. -/
structure Merged (Vs : List (V × Boolean ι)) (Es : List (V × V × Boolean ι)) (eMap0 : V → V → Option (Boolean ι))
    (es : SccEdges ι) (eMap : V → V → Option (Boolean ι)) : Prop where
  maps : EdgeMaps Vs eMap es.adjMap
  mono : ∀ u v b, eMap0 u v = some b → eMap u v = some b
  listed : ∀ u v b, eMap u v = some b → eMap0 u v = some b ∨ Listed Es u v b
  entry : ∀ u v b, (u, v, b) ∈ Es → ∃ b0, eMap u v = some b0 ∧ (b0 = b ∨ (b0, b) ∈ es.equal)
  equal : ∀ b0 b, (b0, b) ∈ es.equal → ∃ u v, eMap u v = some b0 ∧ (u, v, b) ∈ Es
  first : ∀ i1 i2 b, (i1, i2, b) ∈ es.first → ∃ u v, eMap u v = some b ∧ num Vs u = i1 ∧ num Vs v = i2
  posted : ∀ u v b, eMap u v = some b → eMap0 u v = some b ∨ (num Vs u, num Vs v, b) ∈ es.first ∨
    (num Vs v, num Vs u, b) ∈ es.first

theorem sccCheckEs_spec (hends : Joins Vs Es) (hloop : ∀ u v b, (u, v, b) ∈ Es → u ≠ v)
    {eMap0 : V → V → Option (Boolean ι)} {adjMap0 : ℕ → List (ℕ × Boolean ι)} (hmaps : EdgeMaps Vs eMap0 adjMap0) :
    ∃ es eMap, sccCheckEs (numberOf Vs) Es eMap0 adjMap0 = .ok es ∧ Merged Vs Es eMap0 es eMap := by
  induction Es generalizing eMap0 adjMap0 with
  | nil =>
    refine ⟨_, eMap0, rfl, hmaps, fun _ _ _ h => h, fun _ _ _ h => .inl h, ?_, ?_, ?_, fun _ _ _ h => .inl h⟩
    · intro u v b h
      exact absurd h not_mem_nil
    · intro b0 b h
      exact absurd h not_mem_nil
    · intro i1 i2 b h
      exact absurd h not_mem_nil
  | cons e Es ih =>
    obtain ⟨v1, v2, b⟩ := e
    obtain ⟨hv1, hv2⟩ := hends v1 v2 b mem_cons_self
    have hne := hloop v1 v2 b mem_cons_self
    have ih' := fun {m a} (hm : EdgeMaps Vs m a) =>
      @ih (fun u v b h => hends u v b (mem_cons_of_mem _ h))
        (fun u v b h => hloop u v b (mem_cons_of_mem _ h)) m a hm
    unfold sccCheckEs
    cases h0 : eMap0 v1 v2 with
    | some b0 =>
      obtain ⟨es, eMap, hok, hm⟩ := ih' hmaps
      simp only [hok]
      refine ⟨_, eMap, rfl, hm.maps, hm.mono, ?_, ?_, ?_, hm.first, hm.posted⟩
      · intro u v b' h
        rcases hm.listed u v b' h with h | h | h
        · exact .inl h
        · exact .inr (.inl (mem_cons_of_mem _ h))
        · exact .inr (.inr (mem_cons_of_mem _ h))
      · intro u v b' h
        rcases mem_cons.1 h with heq | h
        · simp only [Prod.mk.injEq] at heq
          obtain ⟨rfl, rfl, rfl⟩ := heq
          exact ⟨b0, hm.mono _ _ _ h0, .inr mem_cons_self⟩
        · obtain ⟨b1, h1, h2⟩ := hm.entry u v b' h
          exact ⟨b1, h1, h2.imp id (mem_cons_of_mem _)⟩
      · intro b1 b2 h
        rcases mem_cons.1 h with heq | h
        · simp only [Prod.mk.injEq] at heq
          obtain ⟨rfl, rfl⟩ := heq
          exact ⟨v1, v2, hm.mono _ _ _ h0, mem_cons_self⟩
        · obtain ⟨u, v, h1, h2⟩ := hm.equal b1 b2 h
          exact ⟨u, v, h1, mem_cons_of_mem _ h2⟩
    | none =>
      have h21 : eMap0 v2 v1 = none := by
        rw [hmaps.symm]
        exact h0
      obtain ⟨es, eMap, hok, hm⟩ := ih' (hmaps.put b h0 hv1 hv2 hne)
      have hget : ∀ v ∈ Vs.map Prod.fst, numberOf Vs v = some (num Vs v) := fun v hv => if_pos hv
      simp only [hget v1 hv1, hget v2 hv2, hok]
      have hput : eMap v1 v2 = some b :=
        hm.mono _ _ _ ((putBoth_eq_some h0 h21).2 (.inl ⟨rfl, .inr ⟨rfl, rfl⟩⟩))
      refine ⟨_, eMap, rfl, hm.maps, ?_, ?_, ?_, ?_, ?_, ?_⟩
      · intro u v b' h
        exact hm.mono _ _ _ ((putBoth_eq_some h0 h21).2 (.inr h))
      · intro u v b' h
        rcases hm.listed u v b' h with h | h | h
        · rcases (putBoth_eq_some h0 h21).1 h with ⟨rfl, ⟨rfl, rfl⟩ | ⟨rfl, rfl⟩⟩ | h
          · exact .inr (.inr mem_cons_self)
          · exact .inr (.inl mem_cons_self)
          · exact .inl h
        · exact .inr (.inl (mem_cons_of_mem _ h))
        · exact .inr (.inr (mem_cons_of_mem _ h))
      · intro u v b' h
        rcases mem_cons.1 h with heq | h
        · simp only [Prod.mk.injEq] at heq
          obtain ⟨rfl, rfl, rfl⟩ := heq
          exact ⟨b', hput, .inl rfl⟩
        · exact hm.entry u v b' h
      · intro b1 b2 h
        obtain ⟨u, v, h1, h2⟩ := hm.equal b1 b2 h
        exact ⟨u, v, h1, mem_cons_of_mem _ h2⟩
      · intro i1 i2 b' h
        rcases mem_cons.1 h with heq | h
        · simp only [Prod.mk.injEq] at heq
          obtain ⟨rfl, rfl, rfl⟩ := heq
          exact ⟨v1, v2, hput, rfl, rfl⟩
        · exact hm.first i1 i2 b' h
      · intro u v b' h
        rcases hm.posted u v b' h with h | h | h
        · rcases (putBoth_eq_some h0 h21).1 h with ⟨rfl, ⟨rfl, rfl⟩ | ⟨rfl, rfl⟩⟩ | h
          · exact .inr (.inr mem_cons_self)
          · exact .inr (.inl mem_cons_self)
          · exact .inl h
        · exact .inr (.inl (mem_cons_of_mem _ h))
        · exact .inr (.inr (mem_cons_of_mem _ h))

/-- The edges that are in join vertices that are in, and connect them. -/
def Connects (Vs : List (V × Boolean ι)) (Es : List (V × V × Boolean ι)) (σ : ι → Bool) : Prop :=
  (∀ u v, InEdge Es σ u v → InVertex Vs σ u ∧ InVertex Vs σ v) ∧
    ∀ u v, InVertex Vs σ u → InVertex Vs σ v → Relation.ReflTransGen (UEdge Es σ) u v

variable {es : SccEdges ι} {eMap : V → V → Option (Boolean ι)} {x : SccVars} {seen : SccSeen}

abbrev Maps (Vs : List (V × Boolean ι)) (Es : List (V × V × Boolean ι)) (es : SccEdges ι)
    (eMap : V → V → Option (Boolean ι)) : Prop := Merged Vs Es (fun _ _ => none) es eMap

theorem sccCheck_spec (hnodup : (Vs.map Prod.fst).Nodup) (hends : Joins Vs Es)
    (hloop : ∀ u v b, (u, v, b) ∈ Es → u ≠ v) (hne : Vs ≠ []) :
    ∃ es eMap, sccCheck Vs Es = .ok (checked Vs, es) ∧ Maps Vs Es es eMap := by
  obtain ⟨es, eMap, hok, hm⟩ := sccCheckEs_spec hends hloop EdgeMaps.start
  refine ⟨es, eMap, ?_, hm⟩
  unfold sccCheck
  rw [checkVs_of_nodup Vs hnodup]
  simp only [hok]
  rw [if_neg (by rw [length_eq_zero_iff]; exact hne)]
  rfl

namespace Merged

section
variable (hm : Maps Vs Es es eMap)
include hm

theorem listed' {u v : V} {b : Boolean ι} (h : eMap u v = some b) : Listed Es u v b :=
  (hm.listed u v b h).resolve_left (fun h => Option.some_ne_none _ h.symm)

theorem posted' {u v : V} {b : Boolean ι} (h : eMap u v = some b) :
    (num Vs u, num Vs v, b) ∈ es.first ∨ (num Vs v, num Vs u, b) ∈ es.first :=
  (hm.posted u v b h).resolve_left (fun h => Option.some_ne_none _ h.symm)

theorem agree (hequal : ∀ p ∈ es.equal, p.1.val σ = p.2.val σ) : PairsAgree Es σ := by
  have hval : ∀ u v b, Listed Es u v b → ∃ b0, eMap u v = some b0 ∧ b0.val σ = b.val σ := by
    rintro u v b (h | h)
    · obtain ⟨b0, h0, rfl | hb⟩ := hm.entry u v b h
      · exact ⟨b0, h0, rfl⟩
      · exact ⟨b0, h0, hequal _ hb⟩
    · obtain ⟨b0, h0, rfl | hb⟩ := hm.entry v u b h
      · exact ⟨b0, (hm.maps.symm u v).trans h0, rfl⟩
      · exact ⟨b0, (hm.maps.symm u v).trans h0, hequal _ hb⟩
  intro u v b b' h h'
  obtain ⟨b0, h0, hb⟩ := hval u v b h
  obtain ⟨b1, h1, hb'⟩ := hval u v b' h'
  rw [h0, Option.some.injEq] at h1
  rw [← hb, ← hb', h1]

theorem uEdge_iff (hagree : PairsAgree Es σ) {u v : V} {b : Boolean ι}
    (h : eMap u v = some b) : UEdge Es σ u v ↔ b.val σ = true := by
  have hl := hm.listed' h
  constructor
  · rintro (⟨b', he, hb'⟩ | ⟨b', he, hb'⟩)
    · rw [hagree u v b b' hl (.inl he), hb']
    · rw [hagree u v b b' hl (.inr he), hb']
  · intro hb
    rcases hl with he | he
    · exact .inl ⟨b, he, hb⟩
    · exact .inr ⟨b, he, hb⟩

theorem exists_of_uEdge (hagree : PairsAgree Es σ) {u v : V} (h : UEdge Es σ u v) :
    ∃ b, eMap u v = some b ∧ b.val σ = true := by
  have hex : ∃ b, eMap u v = some b := by
    rcases h with ⟨b, he, -⟩ | ⟨b, he, -⟩
    · obtain ⟨b0, h0, -⟩ := hm.entry u v b he
      exact ⟨b0, h0⟩
    · obtain ⟨b0, h0, -⟩ := hm.entry v u b he
      exact ⟨b0, (hm.maps.symm u v).trans h0⟩
  obtain ⟨b, hb⟩ := hex
  exact ⟨b, hb, (hm.uEdge_iff hagree hb).1 h⟩

theorem exists_neib {u : V} {J : ℕ} {b : Boolean ι}
    (h : (J, b) ∈ es.adjMap (num Vs u)) : ∃ v, v ∈ Vs.map Prod.fst ∧ eMap u v = some b ∧ num Vs v = J := by
  obtain ⟨u', v, he, hu', rfl⟩ := (hm.maps.adj _ _ _).1 h
  rw [num_inj (hm.maps.mem u' v b he) hu'] at he
  rw [hm.maps.symm] at he
  refine ⟨v, hm.maps.mem v u b he, ?_, rfl⟩
  rw [hm.maps.symm]
  exact he

end

end Merged

omit [DecidableEq V] in
theorem UEdge.symm {u v : V} (h : UEdge Es σ u v) : UEdge Es σ v u := Or.symm h

omit [DecidableEq V] in
theorem reach_symm {u v : V} (h : Relation.ReflTransGen (UEdge Es σ) u v) : Relation.ReflTransGen (UEdge Es σ) v u := by
  induction h with
  | refl => exact Relation.ReflTransGen.refl
  | tail _ h ih => exact Relation.ReflTransGen.head h.symm ih

/-! ## Soundness -/

section
variable (hnodup : (Vs.map Prod.fst).Nodup) (hm : Maps Vs Es es eMap) (hx : SccEdgesPosted (checked Vs) es σ x)
include hnodup hm hx

theorem ends_of_uEdge {u v : V} (h : UEdge Es σ u v) : InVertex Vs σ u ∧ InVertex Vs σ v := by
  obtain ⟨b, hb, hval⟩ := hm.exists_of_uEdge (hm.agree hx.equal) h
  have hu := hm.maps.mem u v b hb
  have hv := hm.maps.mem v u b ((hm.maps.symm v u).trans hb)
  have hA : toArray (Vs.map Prod.snd) σ (num Vs u) = true ∧ toArray (Vs.map Prod.snd) σ (num Vs v) = true := by
    rcases hm.posted' hb with hf | hf
    · exact hx.ends _ _ _ hf hval
    · exact (hx.ends _ _ _ hf hval).symm
  exact ⟨(toArray_num_iff hnodup hu).1 hA.1, (toArray_num_iff hnodup hv).1 hA.2⟩

omit hnodup in
theorem uEdge_of_par {u v : V} {b : Boolean ι} (h : eMap u v = some b) (hp : x.par (num Vs u) (num Vs v) = true) :
    UEdge Es σ u v := by
  rw [hm.uEdge_iff (hm.agree hx.equal) h]
  rcases hm.posted' h with hf | hf
  · exact (hx.parent _ _ _ hf).2 hp
  · exact (hx.parent _ _ _ hf).1 hp

theorem exists_parent {seenZero seenStart : Bool} {v : V} (hv : InVertex Vs σ v)
    (hvertex : sccVertex (checked Vs) es σ x seenZero seenStart (num Vs v))
    (hzero : seenZero = true → toArray (Vs.map Prod.snd) σ (num Vs v) = false)
    (hstart : seenStart = true → x.start (num Vs v) = true) (hs : x.start (num Vs v) = false) :
    ∃ u, UEdge Es σ v u ∧ x.distA (num Vs v) = x.distA (num Vs u) + 1 := by
  have hA := (toArray_num_iff hnodup hv.mem).2 hv
  have hz : seenZero = false := by
    by_contra hz
    rw [hzero (Bool.not_eq_false _ ▸ hz)] at hA
    exact Bool.false_ne_true hA
  have hst : seenStart = false := by
    by_contra hst
    rw [hstart (Bool.not_eq_false _ ▸ hst)] at hs
    exact Bool.true_eq_false_eq_False hs
  unfold sccVertex at hvertex
  rw [hz, hst, if_neg Bool.false_ne_true, if_neg Bool.false_ne_true] at hvertex
  obtain ⟨-, -, hsum, hdist⟩ := hvertex
  have hone := hsum hs hA
  unfold sumParents at hone
  obtain ⟨⟨J, b⟩, hmem, hp⟩ := countP_pos_iff.1 (by rw [hone]; exact Nat.one_pos)
  obtain ⟨u, hu, he, rfl⟩ := hm.exists_neib hmem
  exact ⟨u, uEdge_of_par hm hx he hp, hdist _ _ hmem hp⟩

end

theorem scc_sound (hnodup : (Vs.map Prod.fst).Nodup) (hm : Maps Vs Es es eMap)
    (hseen : seen.Sound (checked Vs) es) (hx : sccAux (checked Vs) es σ x seen) :
    PairsAgree Es σ ∧ Connects Vs Es σ := by
  obtain ⟨hstarted, hvertex⟩ := hx
  have hposted := hstarted.edges
  have hone := hseen.one σ x hposted
  refine ⟨hm.agree hposted.equal, fun u v h => ends_of_uEdge hnodup hm hposted (.inl h), ?_⟩
  have hstart := hstarted.start
  -- every vertex that is in reaches the start, by its distance
  have hreach : ∀ s, s ∈ Vs.map Prod.fst → x.start (num Vs s) = true → ∀ n v, InVertex Vs σ v →
      x.distA (num Vs v) = n → Relation.ReflTransGen (UEdge Es σ) v s := by
    intro s hs hsstart n
    induction n with
    | zero =>
      intro v hv hd
      by_cases hvs : x.start (num Vs v) = true
      · rw [num_inj hv.mem (chooseStart_unique hstart (num_mem_Icc hv.mem) (num_mem_Icc hs) hvs hsstart)]
      · have hsnd := hseen.vertex σ x hstarted _ (num_mem_Icc hv.mem) (fun J hJ _ => hvertex J hJ)
        obtain ⟨u, -, hu⟩ := exists_parent hnodup hm hposted hv (hvertex _ (num_mem_Icc hv.mem)) hsnd.1 hsnd.2
          (Bool.eq_false_iff.2 hvs)
        omega
    | succ n ih =>
      intro v hv hd
      by_cases hvs : x.start (num Vs v) = true
      · rw [num_inj hv.mem (chooseStart_unique hstart (num_mem_Icc hv.mem) (num_mem_Icc hs) hvs hsstart)]
      · have hsnd := hseen.vertex σ x hstarted _ (num_mem_Icc hv.mem) (fun J hJ _ => hvertex J hJ)
        obtain ⟨u, he, hu⟩ := exists_parent hnodup hm hposted hv (hvertex _ (num_mem_Icc hv.mem)) hsnd.1 hsnd.2
          (Bool.eq_false_iff.2 hvs)
        exact (Relation.ReflTransGen.single he).trans (ih u (ends_of_uEdge hnodup hm hposted he).2 (by omega))
  intro u v hu hv
  obtain ⟨J, hJ, hsJ⟩ := chooseStart_exists hstart (num_mem_Icc hu.mem) ((toArray_num_iff hnodup hu.mem).2 hu)
  obtain ⟨s, b, hmem, rfl⟩ := exists_num hnodup hJ
  have hs : s ∈ Vs.map Prod.fst := mem_map.2 ⟨_, hmem, rfl⟩
  exact (hreach s hs hsJ _ u hu rfl).trans (reach_symm (hreach s hs hsJ _ v hv rfl))

/-! ## Completeness -/

/-- Distances and parents from a root, where there is one. -/
structure Rooted (Vs : List (V × Boolean ι)) (Es : List (V × V × Boolean ι)) (σ : ι → Bool) (start : ℕ → Bool)
    (d par : ℕ → ℕ) : Prop where
  out : ∀ v ∈ Vs.map Prod.fst, ¬ InVertex Vs σ v → d (num Vs v) = 0
  lt : ∀ v, InVertex Vs σ v → d (num Vs v) < (inVertices Vs σ).card
  root : ∀ v ∈ Vs.map Prod.fst, start (num Vs v) = true → d (num Vs v) = 0 ∧ par (num Vs v) = 0 ∧
    ∀ u, UEdge Es σ v u → d (num Vs u) = 1
  parent : ∀ v, InVertex Vs σ v → start (num Vs v) = false → ∃ u, UEdge Es σ v u ∧ par (num Vs v) = num Vs u
  closer : ∀ u ∈ Vs.map Prod.fst, ∀ v ∈ Vs.map Prod.fst, par (num Vs u) = num Vs v →
    UEdge Es σ u v ∧ d (num Vs u) = d (num Vs v) + 1

def sccValues (Vs : List (V × Boolean ι)) (σ : ι → Bool) (start hasStarted : ℕ → Bool) (d par : ℕ → ℕ) : SccVars where
  k := (inVertices Vs σ).card
  kGt1 := decide (1 < (inVertices Vs σ).card)
  start := start
  hasStarted := hasStarted
  distA := d
  par := fun I J => decide (par I = J)

section
variable {start hasStarted : ℕ → Bool} {d par : ℕ → ℕ}
variable (hnodup : (Vs.map Prod.fst).Nodup) (hm : Maps Vs Es es eMap) (hagree : PairsAgree Es σ)
include hnodup hm hagree

theorem sccValues_posted (hconn : Connects Vs Es σ)
    (hcloser : ∀ u ∈ Vs.map Prod.fst, ∀ v ∈ Vs.map Prod.fst, par (num Vs u) = num Vs v →
      UEdge Es σ u v ∧ d (num Vs u) = d (num Vs v) + 1) :
    SccEdgesPosted (checked Vs) es σ (sccValues Vs σ start hasStarted d par) := by
  have hpair : ∀ {i1 i2 b}, (i1, i2, b) ∈ es.first → ∃ u v, eMap u v = some b ∧ u ∈ Vs.map Prod.fst ∧
      v ∈ Vs.map Prod.fst ∧ num Vs u = i1 ∧ num Vs v = i2 := by
    intro i1 i2 b h
    obtain ⟨u, v, he, hu, hv⟩ := hm.first i1 i2 b h
    exact ⟨u, v, he, hm.maps.mem u v b he, hm.maps.mem v u b ((hm.maps.symm v u).trans he), hu, hv⟩
  refine ⟨count_toArray hnodup, ?_, ?_, ?_, ?_, ⟨ones_le_card hnodup, ?_⟩, ?_⟩
  · rintro ⟨b0, b⟩ hp
    obtain ⟨u, v, he, hmem⟩ := hm.equal b0 b hp
    exact hagree u v b0 b (hm.listed' he) (.inl hmem)
  · intro i1 i2 b h
    obtain ⟨u, v, -, hu, hv, rfl, rfl⟩ := hpair h
    by_contra hno
    push Not at hno
    unfold sccValues at hno
    simp only [ne_eq, decide_eq_false_iff_not, not_not] at hno
    have h1 := (hcloser v hv u hu hno.1).2
    have h2 := (hcloser u hu v hv hno.2).2
    omega
  · intro i1 i2 b h
    obtain ⟨u, v, he, hu, hv, rfl, rfl⟩ := hpair h
    rw [← hm.uEdge_iff hagree he]
    constructor
    · intro hp
      exact (hcloser v hv u hu (of_decide_eq_true hp)).1.symm
    · intro hp
      exact (hcloser u hu v hv (of_decide_eq_true hp)).1
  · intro i1 i2 b h hb
    obtain ⟨u, v, he, hu, hv, rfl, rfl⟩ := hpair h
    have hin : InVertex Vs σ u ∧ InVertex Vs σ v := by
      rcases (hm.uEdge_iff hagree he).2 hb with h | h
      · exact hconn.1 u v h
      · exact (hconn.1 v u h).symm
    exact ⟨(toArray_num_iff hnodup hu).2 hin.1, (toArray_num_iff hnodup hv).2 hin.2⟩
  · exact le_trans (Nat.le_sub_of_add_le (card_add_zeros_le hnodup)) (le_max_left _ _)
  · have hmin : (checked Vs).minK = ones Vs := rfl
    have hones := @ones_le_card _ _ _ _ σ hnodup
    rw [hmin]
    unfold sccValues
    simp only [decide_eq_true_eq]
    split_ifs
    omega

omit hnodup hagree in
theorem sumParents_eq_zero {v : V} (hpar : par (num Vs v) = 0) :
    sumParents es (sccValues Vs σ start hasStarted d par) (num Vs v) = 0 := by
  unfold sumParents
  rw [countP_eq_zero]
  rintro ⟨J, b⟩ hmem
  obtain ⟨u, hu, -, rfl⟩ := hm.exists_neib hmem
  have hne : par (num Vs v) ≠ num Vs u := by
    have := (mem_Icc.1 (num_mem_Icc hu)).1
    omega
  unfold sccValues
  rw [decide_eq_true_eq]
  exact hne

omit hnodup in
theorem sumParents_eq_one {u v : V} (he : UEdge Es σ v u) (hpar : par (num Vs v) = num Vs u) :
    sumParents es (sccValues Vs σ start hasStarted d par) (num Vs v) = 1 := by
  obtain ⟨b, hb, -⟩ := hm.exists_of_uEdge hagree he
  have hmem : num Vs u ∈ (es.adjMap (num Vs v)).map Prod.fst :=
    mem_map.2 ⟨(num Vs u, b), (hm.maps.adj _ _ _).2 ⟨v, u, hb, rfl, rfl⟩, rfl⟩
  have hcount := count_eq_one_of_mem (hm.maps.nodup (num Vs v)) hmem
  rw [count_eq_countP, countP_map] at hcount
  unfold sumParents sccValues
  rw [← hcount]
  apply countP_congr
  rintro ⟨J, b'⟩ -
  simp only [hpar, Function.comp, decide_eq_true_eq, beq_iff_eq]
  exact eq_comm

theorem sccAux_of_rooted (hconn : Connects Vs Es σ) (hseen : seen.Sound (checked Vs) es)
    (hstart : hcpSccChooseStart Vs.length (toArray (Vs.map Prod.snd) σ) (decide (1 < (inVertices Vs σ).card)) (ones Vs)
      seen.one start hasStarted) (hroot : Rooted Vs Es σ start d par) :
    sccAux (checked Vs) es σ (sccValues Vs σ start hasStarted d par) seen := by
  have hposted : SccEdgesPosted (checked Vs) es σ (sccValues Vs σ start hasStarted d par) :=
    sccValues_posted hnodup hm hagree hconn hroot.closer
  have hstarted : SccStarted (checked Vs) es σ (sccValues Vs σ start hasStarted d par) seen := by
    refine ⟨hposted, hstart, ?_⟩
    refine forall_num hnodup ?_
    intro v hv
    have hmax : (inVertices Vs σ).card ≤ (checked Vs).maxK := hposted.dom.2
    have hval : (sccValues Vs σ start hasStarted d par).distA (num Vs v) = d (num Vs v) := rfl
    by_cases hin : InVertex Vs σ v
    · have := hroot.lt v hin
      omega
    · rw [hval, hroot.out v hv hin]
      exact Nat.zero_le _
  refine ⟨hstarted, ?_⟩
  -- by induction on the order of posting: what the solver has bound so far holds of these values
  intro I
  induction I using Nat.strong_induction_on with
  | _ I ih =>
    intro hI
    obtain ⟨hzero, hst⟩ := hseen.vertex σ _ hstarted I hI (fun J hJ hlt => ih J hlt hJ)
    obtain ⟨v, b, hmem, rfl⟩ := exists_num hnodup hI
    have hv : v ∈ Vs.map Prod.fst := mem_map.2 ⟨_, hmem, rfl⟩
    unfold sccVertex
    split_ifs with h1 h2
    · refine hroot.out v hv ?_
      intro hin
      have hA := (toArray_num_iff hnodup hv).2 hin
      have hz : toArray (Vs.map Prod.snd) σ (num Vs v) = false := hzero h1
      rw [hz] at hA
      exact Bool.false_ne_true hA
    · obtain ⟨hd, hp, hnear⟩ := hroot.root v hv (hst h2)
      refine ⟨hd, ?_⟩
      intro J B hJ
      obtain ⟨u, hu, he, rfl⟩ := hm.exists_neib hJ
      refine ⟨?_, ?_, ?_⟩
      · intro hB
        exact hnear u ((hm.uEdge_iff hagree he).2 hB)
      · intro hB
        have hin : InVertex Vs σ u := by
          rcases (hm.uEdge_iff hagree he).2 hB with h | h
          · exact (hconn.1 v u h).2
          · exact (hconn.1 u v h).1
        exact (toArray_num_iff hnodup hu).2 hin
      · have := (mem_Icc.1 (num_mem_Icc hu)).1
        exact decide_eq_false (by omega)
    · refine ⟨fun hs => (hroot.root v hv hs).1, ?_, ?_, ?_⟩
      · intro hs
        exact sumParents_eq_zero hm (hroot.root v hv hs).2.1
      · intro hs hA
        obtain ⟨u, he, hp⟩ := hroot.parent v ((toArray_num_iff hnodup hv).1 hA) hs
        exact sumParents_eq_one hm hagree he hp
      · intro J B hJ hp
        obtain ⟨u, hu, -, rfl⟩ := hm.exists_neib hJ
        exact (hroot.closer v hv u hu (of_decide_eq_true hp)).2

end

/-! ## The tree of shortest paths -/

def inGraph (Es : List (V × V × Boolean ι)) (σ : ι → Bool) : SimpleGraph V := SimpleGraph.fromRel (InEdge Es σ)

omit [DecidableEq V] in
theorem inGraph_adj {u v : V} : (inGraph Es σ).Adj u v ↔ u ≠ v ∧ UEdge Es σ u v := SimpleGraph.fromRel_adj _ u v

omit [DecidableEq V] in
theorem reachable_of_reach {u v : V} (h : Relation.ReflTransGen (UEdge Es σ) u v) : (inGraph Es σ).Reachable u v := by
  induction h with
  | refl => exact SimpleGraph.Reachable.refl u
  | @tail v w _ h ih =>
    by_cases hvw : v = w
    · rw [← hvw]
      exact ih
    · exact ih.trans (SimpleGraph.Adj.reachable (inGraph_adj.2 ⟨hvw, h⟩))

theorem exists_rooted (hloop : ∀ u v b, (u, v, b) ∈ Es → u ≠ v) (hconn : Connects Vs Es σ)
    {s : V} (hs : InVertex Vs σ s) :
    ∃ d par : ℕ → ℕ, Rooted Vs Es σ (fun I => decide (I = num Vs s)) d par := by
  classical
  have hmem : ∀ u v, (inGraph Es σ).Adj u v → u ∈ inVertices Vs σ ∧ v ∈ inVertices Vs σ := by
    intro u v h
    rcases (inGraph_adj.1 h).2 with h | h
    · exact ⟨mem_inVertices.2 (hconn.1 u v h).1, mem_inVertices.2 (hconn.1 u v h).2⟩
    · exact ⟨mem_inVertices.2 (hconn.1 v u h).2, mem_inVertices.2 (hconn.1 v u h).1⟩
  have hne : ∀ {u v}, UEdge Es σ u v → u ≠ v := by
    rintro u v (⟨b, h, -⟩ | ⟨b, h, -⟩)
    · exact hloop u v b h
    · exact (hloop v u b h).symm
  have hadj : ∀ {u v}, UEdge Es σ u v → (inGraph Es σ).Adj u v := fun h => inGraph_adj.2 ⟨hne h, h⟩
  have hreach : ∀ v, InVertex Vs σ v → (inGraph Es σ).Reachable s v := fun v hv =>
    reachable_of_reach (hconn.2 s v hs hv)
  -- the parent: a neighbour one step closer to the root
  have hpar : ∀ v, ∃ u, InVertex Vs σ v → v ≠ s →
      UEdge Es σ v u ∧ (inGraph Es σ).dist s v = (inGraph Es σ).dist s u + 1 := by
    intro v
    by_cases h : InVertex Vs σ v ∧ v ≠ s
    · obtain ⟨u, hu, hd⟩ := Distances.exists_closer (hreach v h.1) h.2
      exact ⟨u, fun _ _ => ⟨(inGraph_adj.1 hu).2.symm, hd⟩⟩
    · exact ⟨v, fun h1 h2 => absurd ⟨h1, h2⟩ h⟩
  choose parent hparent using hpar
  obtain ⟨d, hd⟩ := exists_array Vs (fun v => if InVertex Vs σ v then (inGraph Es σ).dist s v else 0)
  obtain ⟨par, hp⟩ := exists_array Vs (fun v => if InVertex Vs σ v ∧ v ≠ s then num Vs (parent v) else 0)
  have hdin : ∀ v, InVertex Vs σ v → d (num Vs v) = (inGraph Es σ).dist s v := by
    intro v hv
    rw [hd v hv.mem, if_pos hv]
  have hpin : ∀ v, InVertex Vs σ v → v ≠ s → par (num Vs v) = num Vs (parent v) := by
    intro v hv hvs
    rw [hp v hv.mem, if_pos ⟨hv, hvs⟩]
  have hends' : ∀ {u v}, UEdge Es σ u v → InVertex Vs σ u ∧ InVertex Vs σ v := by
    rintro u v (h | h)
    · exact hconn.1 u v h
    · exact (hconn.1 v u h).symm
  refine ⟨d, par, ?_, ?_, ?_, ?_, ?_⟩
  · intro v hv hout
    rw [hd v hv, if_neg hout]
  · intro v hv
    rw [hdin v hv]
    exact Distances.dist_lt_card (mem_inVertices.2 hs) hmem (hreach v hv)
  · intro v hv hvs
    have hvs' : v = s := num_inj hv (of_decide_eq_true hvs)
    subst hvs'
    refine ⟨?_, ?_, ?_⟩
    · rw [hdin v hs, SimpleGraph.dist_self]
    · rw [hp v hv, if_neg (fun h => h.2 rfl)]
    · intro u hu
      rw [hdin u (hends' hu).2]
      exact SimpleGraph.dist_eq_one_iff_adj.2 (hadj hu)
  · intro v hv hvs
    have hvs' : v ≠ s := by
      rintro rfl
      exact of_decide_eq_false hvs rfl
    exact ⟨parent v, (hparent v hv hvs').1, hpin v hv hvs'⟩
  · intro u hu v hv h
    by_cases hin : InVertex Vs σ u ∧ u ≠ s
    · rw [hpin u hin.1 hin.2] at h
      obtain ⟨he, hdist⟩ := hparent u hin.1 hin.2
      have hv' : v = parent u := num_inj hv h.symm
      subst hv'
      refine ⟨he, ?_⟩
      rw [hdin u hin.1, hdin _ (hends' he).2]
      exact hdist
    · rw [hp u hu, if_neg hin] at h
      have := (mem_Icc.1 (num_mem_Icc hv)).1
      omega

/-- The constraints of `scc` have a solution just when the entries of a pair agree and the edges that are in connect
the vertices that are in. -/
theorem scc_iff (hnodup : (Vs.map Prod.fst).Nodup) (hne : Vs ≠ []) (hends : Joins Vs Es)
    (hloop : ∀ u v b, (u, v, b) ∈ Es → u ≠ v) (seen : SccSeen)
    (hseen : ∀ r es, sccCheck Vs Es = .ok (r, es) → seen.Sound r es) (σ : ι → Bool) :
    (∃ x, scc Vs Es seen σ x) ↔ PairsAgree Es σ ∧ Connects Vs Es σ := by
  obtain ⟨es, eMap, hok, hm⟩ := sccCheck_spec hnodup hends hloop hne
  have hsound := hseen _ _ hok
  unfold scc
  simp only [hok]
  constructor
  · rintro ⟨x, hx⟩
    exact scc_sound hnodup hm hsound hx
  · rintro ⟨hagree, hconn⟩
    have hzero : ∀ u ∈ Vs.map Prod.fst, ∀ v ∈ Vs.map Prod.fst, (0 : ℕ) = num Vs v → UEdge Es σ u v ∧ 0 = 0 + 1 := by
      intro u _ v hv h
      have := (mem_Icc.1 (num_mem_Icc hv)).1
      omega
    have hone : ∀ I ∈ Icc 1 Vs.length, seen.one I = true → toArray (Vs.map Prod.snd) σ I = true :=
      hsound.one σ (sccValues Vs σ (fun _ => false) (fun _ => false) (fun _ => 0) (fun _ => 0))
        (sccValues_posted hnodup hm hagree hconn hzero)
    rcases (inVertices Vs σ).eq_empty_or_nonempty with hempty | ⟨w, hw⟩
    · have hout : ∀ v, ¬ InVertex Vs σ v := by
        intro v hv
        have := mem_inVertices.2 hv
        rw [hempty] at this
        exact absurd this (Finset.notMem_empty v)
      have hA : ∀ I ∈ Icc 1 Vs.length, toArray (Vs.map Prod.snd) σ I = false := by
        refine forall_num hnodup ?_
        intro v hv
        rw [← Bool.not_eq_true, toArray_num_iff hnodup hv]
        exact hout v
      have hcard : (inVertices Vs σ).card = 0 := by rw [hempty, card_empty]
      have hones := @ones_le_card _ _ _ _ σ hnodup
      have hroot : Rooted Vs Es σ (fun _ => false) (fun _ => 0) fun _ => 0 :=
        ⟨fun _ _ _ => rfl, fun v hv => absurd hv (hout v), fun _ _ h => absurd h Bool.false_ne_true,
          fun v hv => absurd hv (hout v), hzero⟩
      exact ⟨_, sccAux_of_rooted hnodup hm hagree hconn hsound (chooseStart_none hone hA
        (length_pos_iff.2 hne) (by rw [hcard]; rfl) (by omega)) hroot⟩
    · have hw' := mem_inVertices.1 hw
      obtain ⟨J, hJ, hA, hasStarted, hstart⟩ := exists_chooseStart
        (ones Vs) (decide (1 < (inVertices Vs σ).card)) hone (num_mem_Icc hw'.mem)
        ((toArray_num_iff hnodup hw'.mem).2 hw') (by rw [count_toArray hnodup]; exact ones_le_card hnodup)
      obtain ⟨s, b, hmem, rfl⟩ := exists_num hnodup hJ
      have hs : s ∈ Vs.map Prod.fst := mem_map.2 ⟨_, hmem, rfl⟩
      obtain ⟨d, par, hroot⟩ := exists_rooted hloop hconn ((toArray_num_iff hnodup hs).1 hA)
      exact ⟨_, sccAux_of_rooted hnodup hm hagree hconn hsound hstart hroot⟩

end

end Picat.Graph
