import Mathlib.Combinatorics.SimpleGraph.Acyclic
import Mathlib.Data.List.AList
import Picat.Graph.Scc

/-!
# `tree`: connected with one edge less than vertices

* `isTree_iff` : a connected graph is a tree just when it has one edge less than vertices.
-/

namespace Picat.Graph
open Finset

variable {V ι : Type} [DecidableEq V]

section
variable (lt : V → V → Bool)

/-- `EMap`: the Boolean of every edge under its ends, put in the order `@<`. -/
def treeEMap : List (V × V × Boolean ι) → AList (fun _ : V × V => Boolean ι) → AList (fun _ : V × V => Boolean ι)
  | [], eMap => eMap
  | (v1, v2, b) :: es, eMap => treeEMap es (eMap.insert (if lt v1 v2 then (v1, v2) else (v2, v1)) b)

/-- `sum(L)`, for the values `L` of `EMap`. -/
def sumValues (Es : List (V × V × Boolean ι)) (σ : ι → Bool) : ℕ := (treeEMap lt Es ∅).entries.countP fun p => p.2.val σ

/-- `scc` and the number of edges; `kGe2` is the variable `KGe2`. -/
def tree (Vs : List (V × Boolean ι)) (Es : List (V × V × Boolean ι)) (seen : SccSeen) (σ : ι → Bool) (x : SccVars)
    (kGe2 : Bool) : Prop :=
  scc Vs Es seen σ x ∧ (kGe2 = true ↔ 2 ≤ x.k) ∧ (kGe2 = true → x.k = sumValues lt Es σ + 1)

end

/-- The pairs of vertices with an edge that is in, in one orientation or the other. -/
def inPairs (Es : List (V × V × Boolean ι)) (σ : ι → Bool) : Finset (Sym2 V) :=
  ((Es.filter fun e => e.2.2.val σ).map fun e => s(e.1, e.2.1)).toFinset

section
variable {Vs : List (V × Boolean ι)} {Es : List (V × V × Boolean ι)} {σ : ι → Bool} {lt : V → V → Bool}

theorem mem_inPairs {u v : V} : s(u, v) ∈ inPairs Es σ ↔ UEdge Es σ u v := by
  unfold inPairs UEdge InEdge
  rw [List.mem_toFinset, List.mem_map]
  constructor
  · intro h
    obtain ⟨⟨a, c, b⟩, hmem, heq⟩ := h
    obtain ⟨hmem, hb⟩ := List.mem_filter.1 hmem
    rcases Sym2.eq_iff.1 heq with ⟨rfl, rfl⟩ | ⟨rfl, rfl⟩
    · exact .inl ⟨b, hmem, hb⟩
    · exact .inr ⟨b, hmem, hb⟩
  · rintro (⟨b, hmem, hb⟩ | ⟨b, hmem, hb⟩)
    · exact ⟨_, List.mem_filter.2 ⟨hmem, hb⟩, rfl⟩
    · exact ⟨_, List.mem_filter.2 ⟨hmem, hb⟩, Sym2.eq_swap⟩

/-! ## The map of the edges -/

def orderedEnds (lt : V → V → Bool) (u v : V) : V × V := if lt u v then (u, v) else (v, u)

omit [DecidableEq V] in
theorem mk_orderedEnds (u v : V) : s((orderedEnds lt u v).1, (orderedEnds lt u v).2) = s(u, v) := by
  unfold orderedEnds
  split_ifs
  · rfl
  · exact Sym2.eq_swap

omit [DecidableEq V] in
theorem orderedEnds_comm (hlt : ∀ u v, u ≠ v → lt u v = !lt v u) {u v : V} (hne : u ≠ v) :
    orderedEnds lt u v = orderedEnds lt v u := by
  unfold orderedEnds
  rw [hlt u v hne]
  cases lt v u <;> rfl

theorem treeEMap_lookup (m : AList (fun _ : V × V => Boolean ι)) (k : V × V) :
    (∃ b, (treeEMap lt Es m).lookup k = some b ∧ ∃ u v, (u, v, b) ∈ Es ∧ orderedEnds lt u v = k) ∨
      ((treeEMap lt Es m).lookup k = m.lookup k ∧ ∀ u v b, (u, v, b) ∈ Es → orderedEnds lt u v ≠ k) := by
  induction Es generalizing m with
  | nil =>
    right
    exact ⟨rfl, fun u v b h => absurd h List.not_mem_nil⟩
  | cons e Es ih =>
    obtain ⟨v1, v2, b⟩ := e
    unfold treeEMap
    rcases ih (m.insert (if lt v1 v2 then (v1, v2) else (v2, v1)) b) with ⟨b', h, u, v, hmem, hk⟩ | ⟨h, hno⟩
    · exact .inl ⟨b', h, u, v, List.mem_cons_of_mem _ hmem, hk⟩
    · by_cases hk : orderedEnds lt v1 v2 = k
      · left
        refine ⟨b, ?_, v1, v2, List.mem_cons_self, hk⟩
        rw [h, ← hk]
        exact AList.lookup_insert m
      · right
        refine ⟨?_, ?_⟩
        · rw [h]
          exact AList.lookup_insert_ne (Ne.symm hk)
        · intro u v b' hmem
          rcases List.mem_cons.1 hmem with heq | hmem
          · simp only [Prod.mk.injEq] at heq
            obtain ⟨rfl, rfl, rfl⟩ := heq
            exact hk
          · exact hno u v b' hmem

/-- The map has one entry for every pair of vertices, with the value of all its entries in the list. -/
theorem sum_values (hlt : ∀ u v, u ≠ v → lt u v = !lt v u) (hloop : ∀ u v b, (u, v, b) ∈ Es → u ≠ v)
    (hagree : PairsAgree Es σ) : sumValues lt Es σ = (inPairs Es σ).card := by
  unfold sumValues
  rw [List.countP_eq_length_filter]
  set l := (treeEMap lt Es ∅).entries.filter fun p => p.2.val σ with hl
  have hmem : ∀ k, k ∈ l.map Sigma.fst ↔ ∃ b, (treeEMap lt Es ∅).lookup k = some b ∧ b.val σ = true := by
    intro k
    constructor
    · intro h
      obtain ⟨⟨k', b⟩, hkb, rfl⟩ := List.mem_map.1 h
      obtain ⟨hkb, hb⟩ := List.mem_filter.1 hkb
      exact ⟨b, AList.mem_lookup_iff.2 hkb, hb⟩
    · intro hboth
      obtain ⟨b, hlook, hb⟩ := hboth
      exact List.mem_map.2 ⟨⟨k, b⟩, List.mem_filter.2 ⟨AList.mem_lookup_iff.1 hlook, hb⟩, rfl⟩
  have hkeys : (l.map Sigma.fst).Nodup := by
    have hnodup : ((treeEMap lt Es ∅).entries.map Sigma.fst).Nodup := (treeEMap lt Es ∅).nodupKeys
    exact (List.filter_sublist.map Sigma.fst).nodup hnodup
  -- a key of the map is the ordered ends of an entry of the list
  have hkey : ∀ k b, (treeEMap lt Es ∅).lookup k = some b → ∃ u v, (u, v, b) ∈ Es ∧ orderedEnds lt u v = k := by
    intro k b h
    rcases @treeEMap_lookup _ _ _ Es lt ∅ k with ⟨b', hb', hex⟩ | ⟨hb', -⟩
    · rw [h, Option.some.injEq] at hb'
      rw [hb']
      exact hex
    · rw [h, AList.lookup_empty] at hb'
      exact absurd hb' (Option.some_ne_none b)
  have hlen : l.length = (l.map Sigma.fst).toFinset.card := by
    rw [List.toFinset_card_of_nodup hkeys, List.length_map]
  rw [hlen]
  apply card_nbij (fun k => s(k.1, k.2))
  · intro k hk
    obtain ⟨b, hlook, hb⟩ := (hmem k).1 (List.mem_toFinset.1 hk)
    obtain ⟨u, v, he, rfl⟩ := hkey k b hlook
    simp only [mk_orderedEnds]
    exact mem_coe.2 (mem_inPairs.2 (.inl ⟨b, he, hb⟩))
  · intro k hk k' hk' heq
    obtain ⟨b, hlook, -⟩ := (hmem k).1 (List.mem_toFinset.1 hk)
    obtain ⟨b', hlook', -⟩ := (hmem k').1 (List.mem_toFinset.1 hk')
    obtain ⟨u, v, he, rfl⟩ := hkey k b hlook
    obtain ⟨u', v', he', rfl⟩ := hkey k' b' hlook'
    simp only [mk_orderedEnds] at heq
    rcases Sym2.eq_iff.1 heq with ⟨rfl, rfl⟩ | ⟨rfl, rfl⟩
    · rfl
    · exact orderedEnds_comm hlt (hloop u v b he)
  · intro p hp
    induction p using Sym2.ind with
    | _ u v =>
      have hfind : ∀ u v, InEdge Es σ u v → ∃ k, k ∈ l.map Sigma.fst ∧ s(k.1, k.2) = s(u, v) := by
        rintro u v ⟨b, he, hb⟩
        refine ⟨orderedEnds lt u v, (hmem _).2 ?_, mk_orderedEnds u v⟩
        rcases @treeEMap_lookup _ _ _ Es lt ∅ (orderedEnds lt u v) with ⟨b', hlook, u', v', he', hk⟩ | ⟨-, hno⟩
        · refine ⟨b', hlook, ?_⟩
          have hpair : s(u', v') = s(u, v) := by
            rw [← @mk_orderedEnds _ lt u' v', hk, mk_orderedEnds]
          have hl' : Listed Es u v b' := by
            rcases Sym2.eq_iff.1 hpair with ⟨rfl, rfl⟩ | ⟨rfl, rfl⟩
            · exact .inl he'
            · exact .inr he'
          rw [hagree u v b' b hl' (.inl he), hb]
        · exact absurd rfl (hno u v b he)
      rcases mem_inPairs.1 (mem_coe.1 hp) with h | h
      · obtain ⟨k, hk, heq⟩ := hfind u v h
        exact ⟨k, mem_coe.2 (List.mem_toFinset.2 hk), heq⟩
      · obtain ⟨k, hk, heq⟩ := hfind v u h
        exact ⟨k, mem_coe.2 (List.mem_toFinset.2 hk), heq.trans Sym2.eq_swap⟩

/-- With two vertices in, connected by the edges that are in: one edge less than vertices makes a tree. -/
theorem isTree_iff (hconn : Connects Vs Es σ) (hloop : ∀ u v b, (u, v, b) ∈ Es → u ≠ v)
    (hK : 2 ≤ (inVertices Vs σ).card) :
    ((inGraph Es σ).induce (inVertices Vs σ : Set V)).IsTree ↔ (inPairs Es σ).card + 1 = (inVertices Vs σ).card := by
  have hadj : ∀ {a b : (inVertices Vs σ : Set V)},
      ((inGraph Es σ).induce (inVertices Vs σ : Set V)).Adj a b ↔ (a : V) ≠ b ∧ UEdge Es σ a b := inGraph_adj
  have hne : ∀ {u v}, UEdge Es σ u v → u ≠ v := by
    rintro u v (⟨b, h, -⟩ | ⟨b, h, -⟩)
    · exact hloop u v b h
    · exact (hloop v u b h).symm
  have hends : ∀ {u v}, UEdge Es σ u v → u ∈ inVertices Vs σ ∧ v ∈ inVertices Vs σ := by
    rintro u v (h | h)
    · exact ⟨mem_inVertices.2 (hconn.1 u v h).1, mem_inVertices.2 (hconn.1 u v h).2⟩
    · exact ⟨mem_inVertices.2 (hconn.1 v u h).2, mem_inVertices.2 (hconn.1 v u h).1⟩
  rw [SimpleGraph.isTree_iff_connected_and_card]
  have hcon : ((inGraph Es σ).induce (inVertices Vs σ : Set V)).Connected := by
    obtain ⟨w, hw⟩ : (inVertices Vs σ).Nonempty := card_pos.1 (by omega)
    refine (SimpleGraph.connected_iff _).2 ⟨?_, ⟨⟨w, mem_coe.2 hw⟩⟩⟩
    rintro ⟨u, hu⟩ ⟨v, hv⟩
    -- the path stays among the vertices that are in
    have hpath : ∀ z, Relation.ReflTransGen (UEdge Es σ) u z → ∀ hz : z ∈ (inVertices Vs σ : Set V),
        ((inGraph Es σ).induce (inVertices Vs σ : Set V)).Reachable ⟨u, hu⟩ ⟨z, hz⟩ := by
      intro z h
      induction h with
      | refl => exact fun _ => SimpleGraph.Reachable.refl _
      | @tail y z _ he ih =>
        intro hz
        have hy : y ∈ (inVertices Vs σ : Set V) := mem_coe.2 (hends he).1
        have hyz : ((inGraph Es σ).induce (inVertices Vs σ : Set V)).Adj ⟨y, hy⟩ ⟨z, hz⟩ := hadj.2 ⟨hne he, he⟩
        exact (ih hy).trans hyz.reachable
    exact hpath v (hconn.2 u v (mem_inVertices.1 (mem_coe.1 hu)) (mem_inVertices.1 (mem_coe.1 hv))) hv
  rw [and_iff_right hcon]
  have hvert : Nat.card ((inVertices Vs σ : Set V)) = (inVertices Vs σ).card := by
    rw [Nat.card_coe_set_eq, Set.ncard_coe_finset]
  have hedge : Nat.card ((inGraph Es σ).induce (inVertices Vs σ : Set V)).edgeSet = (inPairs Es σ).card := by
    rw [Nat.card_coe_set_eq, ← Set.ncard_coe_finset,
      ← Set.ncard_image_of_injective _ (Sym2.map.injective Subtype.val_injective)]
    congr 1
    ext p
    induction p using Sym2.ind with
    | _ u v =>
      rw [mem_coe, mem_inPairs, Set.mem_image]
      constructor
      · intro hp
        obtain ⟨q, hq, heq⟩ := hp
        induction q using Sym2.ind with
        | _ a b =>
          have hab := (hadj.1 ((SimpleGraph.mem_edgeSet _).1 hq)).2
          rw [Sym2.map_mk] at heq
          rcases Sym2.eq_iff.1 heq with ⟨rfl, rfl⟩ | ⟨rfl, rfl⟩
          · exact hab
          · exact hab.symm
      · intro he
        refine ⟨s(⟨u, mem_coe.2 (hends he).1⟩, ⟨v, mem_coe.2 (hends he).2⟩), ?_, rfl⟩
        exact (SimpleGraph.mem_edgeSet _).2 (hadj.2 ⟨hne he, he⟩)
  rw [hvert, hedge]

theorem k_of_scc (hnodup : (Vs.map Prod.fst).Nodup) (hne : Vs ≠ []) (hends : Joins Vs Es)
    (hloop : ∀ u v b, (u, v, b) ∈ Es → u ≠ v) {seen : SccSeen} {x : SccVars} (h : scc Vs Es seen σ x) :
    x.k = (inVertices Vs σ).card := by
  obtain ⟨es, eMap, hok, -⟩ := sccCheck_spec hnodup hends hloop hne
  unfold scc at h
  simp only [hok] at h
  rw [← count_toArray hnodup]
  exact h.1.edges.sum.symm

/-- `scc` and `tree`: the entries of a pair agree and the edges that are in connect the vertices that are in; for `tree`
there is one edge less than vertices, which makes the connected graph a tree. -/
theorem scc_tree_iff (hnodup : (Vs.map Prod.fst).Nodup) (hne : Vs ≠ []) (hends : Joins Vs Es)
    (hloop : ∀ u v b, (u, v, b) ∈ Es → u ≠ v) (hlt : ∀ u v, u ≠ v → lt u v = !lt v u) (seen : SccSeen)
    (hseen : ∀ r es, sccCheck Vs Es = .ok (r, es) → seen.Sound r es) (σ : ι → Bool) (k : ℕ) :
    ((∃ x, scc Vs Es seen σ x ∧ x.k = k) ↔ k = (inVertices Vs σ).card ∧ PairsAgree Es σ ∧ Connects Vs Es σ) ∧
    ((∃ x kGe2, tree lt Vs Es seen σ x kGe2 ∧ x.k = k) ↔
      (k = (inVertices Vs σ).card ∧ PairsAgree Es σ ∧ Connects Vs Es σ) ∧ (2 ≤ k → (inPairs Es σ).card + 1 = k)) ∧
    (Connects Vs Es σ → 2 ≤ (inVertices Vs σ).card → (((inGraph Es σ).induce (inVertices Vs σ : Set V)).IsTree ↔
        (inPairs Es σ).card + 1 = (inVertices Vs σ).card)) := by
  have hiff := scc_iff hnodup hne hends hloop seen hseen σ
  refine ⟨?_, ?_, fun hconn hK => isTree_iff hconn hloop hK⟩
  · constructor
    · intro hp
      obtain ⟨x, hx, rfl⟩ := hp
      exact ⟨k_of_scc hnodup hne hends hloop hx, hiff.1 ⟨x, hx⟩⟩
    · intro hp
      obtain ⟨rfl, h⟩ := hp
      obtain ⟨x, hx⟩ := hiff.2 h
      exact ⟨x, hx, k_of_scc hnodup hne hends hloop hx⟩
  · constructor
    · intro hp
      obtain ⟨x, kGe2, ⟨hx, hge, hsum⟩, rfl⟩ := hp
      have hboth := hiff.1 ⟨x, hx⟩
      refine ⟨⟨k_of_scc hnodup hne hends hloop hx, hboth⟩, ?_⟩
      intro h2
      rw [hsum (hge.2 h2), sum_values hlt hloop hboth.1]
    · intro hp
      obtain ⟨⟨rfl, h⟩, hcount⟩ := hp
      obtain ⟨x, hx⟩ := hiff.2 h
      have hk := k_of_scc hnodup hne hends hloop hx
      refine ⟨x, decide (2 ≤ x.k), ⟨hx, decide_eq_true_iff, ?_⟩, hk⟩
      intro hge
      rw [sum_values hlt hloop h.1, hk, hcount (hk ▸ of_decide_eq_true hge)]

end

/-! ## A path, and an edge listed in both orientations -/

def nothingBound : SccSeen := ⟨fun _ => false, fun _ => false, fun _ => false⟩

omit [DecidableEq V] in
theorem nothingBound_sound (r : CheckedVs V ι) (es : SccEdges ι) : nothingBound.Sound r es :=
  ⟨fun _ _ _ _ _ h => absurd h Bool.false_ne_true,
    fun _ _ _ _ _ _ => ⟨fun h => absurd h Bool.false_ne_true, fun h => absurd h Bool.false_ne_true⟩⟩

/-- The vertices 0 and 1 are in, with the edge between them; vertex 2 and its edge are out. -/
def pathEs : List (ℕ × ℕ × Boolean ℕ) := [(0, 1, .var 2), (1, 2, .var 4)]

theorem connects_pair {Es : List (ℕ × ℕ × Boolean ℕ)}
    (hE : ∀ u v, InEdge Es pairIn u v ↔ u = 0 ∧ v = 1) : Connects pairVs Es pairIn := by
  have hin : ∀ v, InVertex pairVs pairIn v ↔ v = 0 ∨ v = 1 := by
    intro v
    rw [← mem_inVertices, inVertices_pair, mem_insert, mem_singleton]
  refine ⟨?_, ?_⟩
  · intro u v h
    obtain ⟨rfl, rfl⟩ := (hE u v).1 h
    exact ⟨(hin 0).2 (.inl rfl), (hin 1).2 (.inr rfl)⟩
  · intro u v hu hv
    rw [hin] at hu hv
    by_cases huv : u = v
    · rw [huv]
    · apply Relation.ReflTransGen.single
      unfold UEdge
      rw [hE, hE]
      omega

theorem scc_tree_iff_path : ∃ x kGe2, tree (fun u v : ℕ => decide (u < v)) pairVs pathEs nothingBound pairIn x kGe2 ∧
    x.k = 2 := by
  refine (@scc_tree_iff ℕ ℕ _ pairVs pathEs (fun u v => decide (u < v)) (by decide) (by decide) ?_ ?_ ?_ nothingBound
    (fun r es _ => nothingBound_sound r es) pairIn 2).2.1.2 ⟨⟨by decide, ?_, ?_⟩, fun _ => by decide⟩
  · intro u v b h
    simp only [pathEs, List.mem_cons, Prod.mk.injEq, List.not_mem_nil, or_false] at h
    rcases h with ⟨rfl, rfl, -⟩ | ⟨rfl, rfl, -⟩ <;> decide
  · intro u v b h
    simp only [pathEs, List.mem_cons, Prod.mk.injEq, List.not_mem_nil, or_false] at h
    omega
  · intro u v hne
    rw [Bool.eq_iff_iff, Bool.not_eq_true', decide_eq_true_eq, decide_eq_false_iff_not]
    omega
  · intro u v b b' h h'
    simp only [Listed, pathEs, List.mem_cons, Prod.mk.injEq, List.not_mem_nil, or_false] at h h'
    have hb : b = b' := by
      rcases h with (⟨rfl, rfl, rfl⟩ | ⟨rfl, rfl, rfl⟩) | ⟨rfl, rfl, rfl⟩ | ⟨rfl, rfl, rfl⟩ <;> simp_all
    rw [hb]
  · apply connects_pair
    intro u v
    rw [inEdge_iff]
    simp [pathEs, pairIn, Boolean.val]
    omega

/-- The edge between 0 and 1 in both orientations, the second one out. -/
def bothEs : List (ℕ × ℕ × Boolean ℕ) := [(0, 1, .var 2), (1, 0, .var 4)]

/-- The edges that are in connect the vertices that are in, and there is no solution: the two orientations of an edge
share one Boolean. -/
theorem scc_both_orientations : Connects pairVs bothEs pairIn ∧ ∀ x, ¬ scc pairVs bothEs nothingBound pairIn x := by
  refine ⟨?_, ?_⟩
  · apply connects_pair
    intro u v
    rw [inEdge_iff]
    simp [bothEs, pairIn, Boolean.val]
    omega
  · intro x hx
    obtain ⟨es, eMap, hok, hm⟩ := @sccCheck_spec ℕ ℕ _ pairVs bothEs (by decide) (by
      intro u v b h
      simp only [bothEs, List.mem_cons, Prod.mk.injEq, List.not_mem_nil, or_false] at h
      rcases h with ⟨rfl, rfl, -⟩ | ⟨rfl, rfl, -⟩ <;> decide) (by
      intro u v b h
      simp only [bothEs, List.mem_cons, Prod.mk.injEq, List.not_mem_nil, or_false] at h
      omega) (by decide)
    unfold scc at hx
    simp only [hok] at hx
    have h := hm.agree hx.1.edges.equal 0 1 (.var 2) (.var 4) (.inl (by decide)) (.inr (by decide))
    exact absurd h (by decide)

end Picat.Graph
