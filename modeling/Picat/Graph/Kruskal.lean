import Mathlib.Data.List.AList
import Picat.Lib.SpanningForests

/-!
# Minimum spanning trees by Kruskal's algorithm

`none` is a search that has not come to its end or an error, `some none` is failure.

* `mst_spec` : the tree is a spanning tree of least cost.
-/

namespace Picat.Mst

variable {V W : Type}

/-- `{V1,V2,W}` -/
structure Edge (V W : Type) where
  v1 : V
  v2 : V
  w : W

def Edge.ends (e : Edge V W) : V × V := (e.v1, e.v2)

abbrev PMap (K β : Type) := AList fun _ : K => β

variable [DecidableEq V]

def checkGraph : List (Edge V W) → PMap V ℕ → PMap V ℕ
  | [], NodesMap => NodesMap
  | e :: Graph, NodesMap => checkGraph Graph ((NodesMap.insert e.v1 1).insert e.v2 1)

def forestFindRoot : ℕ → PMap V V → V → Option V
  | 0, _, _ => none
  | fuel + 1, Forest, v => do
    let Parent ← Forest.lookup v
    if Parent = v then some v else forestFindRoot fuel Forest Parent

section
variable [Add W] [Zero W]

/-- No rule applies when the edges are used up and some are still to be found. -/
def addEdges (fuel : ℕ) : List (Edge V W) → ℤ → PMap V V → List (Edge V W) → W → Option (Option (List (Edge V W) × W))
  | [], Count, _, TreeR, Cost0 => if Count = 0 then some (some (TreeR, Cost0)) else some none
  | e :: Edges, Count, Forest, TreeR, Cost0 =>
    if Count = 0 then some (some (TreeR, Cost0))
    else do
      let Root1 ← forestFindRoot fuel Forest e.v1
      let Root2 ← forestFindRoot fuel Forest e.v2
      if Root1 ≠ Root2 then do
        let res ← addEdges fuel Edges (Count - 1) (Forest.insert Root1 e.v2) TreeR (Cost0 + e.w)
        some (res.map fun (Tree1, Cost) => (e :: Tree1, Cost))
      else addEdges fuel Edges Count Forest TreeR Cost0

def kruskal (fuel : ℕ) (Nodes : List V) (Edges : List (Edge V W)) : Option (Option (List (Edge V W) × W)) :=
  let Forest : PMap V V := Nodes.foldl (fun Forest Node => Forest.insert Node Node) ∅
  addEdges fuel Edges ((Nodes.length : ℤ) - 1) Forest [] 0

/-- `sort(Graph,3)` is a parameter. -/
def mst (sort3 : List (Edge V W) → List (Edge V W)) (fuel : ℕ) (Graph : List (Edge V W)) :
    Option (Option (List (Edge V W) × W)) :=
  kruskal fuel (checkGraph Graph ∅).keys (sort3 Graph)

end

end Picat.Mst

namespace Picat.Mst
open SpanningForests

/-! ## Kruskal's trees are minimal -/

variable {V W : Type}

def vertices (Graph : List (Edge V W)) : List V := Graph.flatMap fun e => [e.v1, e.v2]

theorem mem_vertices {Graph : List (Edge V W)} {e : Edge V W} (he : e ∈ Graph) :
    e.v1 ∈ vertices Graph ∧ e.v2 ∈ vertices Graph :=
  ⟨List.mem_flatMap.2 ⟨e, he, List.mem_cons_self⟩,
    List.mem_flatMap.2 ⟨e, he, List.mem_cons_of_mem _ List.mem_cons_self⟩⟩

structure IsSpanningTree (Graph Tree : List (Edge V W)) : Prop where
  edges : Tree.Subperm Graph
  forest : IsForest (Tree.map Edge.ends)
  connects : Connects (Tree.map Edge.ends) (vertices Graph)

section
variable {Graph Tree Es : List (Edge V W)} {S : List V}

theorem ends_mem (hS : ∀ v, v ∈ S ↔ v ∈ vertices Graph) (hsub : Tree ⊆ Graph) :
    ∀ p ∈ Tree.map Edge.ends, p.1 ∈ S ∧ p.2 ∈ S := by
  intro p hp
  obtain ⟨e, he, rfl⟩ := List.mem_map.1 hp
  obtain ⟨h1, h2⟩ := mem_vertices (hsub he)
  exact ⟨(hS e.v1).2 h1, (hS e.v2).2 h2⟩

theorem connects_congr {Es : List (V × V)} (hS : ∀ v, v ∈ S ↔ v ∈ vertices Graph) :
    Connects Es S ↔ Connects Es (vertices Graph) := by
  unfold Connects
  simp only [hS]

theorem IsSpanningTree.length_eq (h : IsSpanningTree Graph Tree) (hS : ∀ v, v ∈ S ↔ v ∈ vertices Graph) (hne : S ≠ [])
    (hnodup : S.Nodup) : Tree.length + 1 = S.length := by
  have hlt := h.forest.length_lt (ends_mem hS h.edges.subset) hne
  have hle := ((connects_congr hS).2 h.connects).length_le hnodup
  rw [List.length_map] at hlt hle
  exact le_antisymm hlt hle

end

section
variable [LinearOrder W] {Es Fs : List (Edge V W)} {w : W} {a b : V}

/-- The edges with weights up to `w`. -/
def upTo (w : W) (Es : List (Edge V W)) : List (V × V) := (Es.filter fun f => f.w ≤ w).map Edge.ends

theorem joined_upTo (hw : ∀ f ∈ Es, f.w ≤ w) (h : Joined (Es.map Edge.ends) a b) : Joined (upTo w Es) a b := by
  unfold upTo
  rw [List.filter_eq_self.2 fun f hf => decide_eq_true (hw f hf)]
  exact h

theorem upTo_subset (hsub : Es ⊆ Fs) : upTo w Es ⊆ upTo w Fs := by
  apply List.map_subset
  intro f hf
  obtain ⟨hmem, hw⟩ := List.mem_filter.1 hf
  exact List.mem_filter.2 ⟨hsub hmem, hw⟩

end

/-! ## Outcomes -/

section
variable [AddCommMonoid W] [LinearOrder W]

/-- The tree of a run over `Es`, when the edges of `Done` are taken. -/
structure Grown (S : List V) (Done Es : List (Edge V W)) (Cost0 : W) (Tree : List (Edge V W)) (Cost : W) : Prop where
  sublist : Tree.Sublist Es
  forest : IsForest ((Done ++ Tree).map Edge.ends)
  length : (Done ++ Tree).length + 1 = S.length
  cost : Cost = Cost0 + (Tree.map Edge.w).sum
  joined : ∀ e ∈ Es, Joined (upTo e.w (Done ++ Tree)) e.v1 e.v2

def Outcome (S : List V) (Done Es : List (Edge V W)) (Cost0 : W) : Option (List (Edge V W) × W) → Prop
  | none => ¬ Connects ((Done ++ Es).map Edge.ends) S
  | some (T, Cost) => Grown S Done Es Cost0 T Cost

section
variable {S : List V} {Es Done : List (Edge V W)} {e : Edge V W} {Cost0 : W}

theorem grown_nil (hforest : IsForest (Done.map Edge.ends)) (hmem : ∀ d ∈ Done ++ Es, d.v1 ∈ S ∧ d.v2 ∈ S)
    (hDone : ∀ d ∈ Done, ∀ e ∈ Es, d.w ≤ e.w) (hlen : Done.length + 1 = S.length) : Grown S Done Es Cost0 [] Cost0 := by
  have hends : ∀ p ∈ Done.map Edge.ends, p.1 ∈ S ∧ p.2 ∈ S := by
    intro p hp
    obtain ⟨d, hd, rfl⟩ := List.mem_map.1 hp
    exact hmem d (List.mem_append_left Es hd)
  have hconnects : Connects (Done.map Edge.ends) S := by
    apply hforest.connects hends
    rw [List.length_map, hlen]
  constructor
  · exact List.nil_sublist Es
  · rw [List.append_nil]
    exact hforest
  · rw [List.append_nil]
    exact hlen
  · rw [List.map_nil, List.sum_nil, add_zero]
  · intro e he
    obtain ⟨h1, h2⟩ := hmem e (List.mem_append_right Done he)
    rw [List.append_nil]
    exact joined_upTo (fun d hd => hDone d hd e he) (hconnects _ h1 _ h2)

theorem Outcome.take {res : Option (List (Edge V W) × W)} (h : Outcome S (e :: Done) Es (Cost0 + e.w) res) :
    Outcome S Done (e :: Es) Cost0 (res.map fun (Tree1, Cost) => (e :: Tree1, Cost)) := by
  cases res with
  | none =>
    intro hconnects
    apply h
    intro a ha b hb
    exact (hconnects a ha b hb).mono (List.perm_middle.map Edge.ends).subset
  | some res =>
    obtain ⟨Tree, Cost⟩ := res
    have hperm : (e :: (Done ++ Tree)).Perm (Done ++ e :: Tree) := List.perm_middle.symm
    constructor
    · exact h.sublist.cons_cons e
    · exact h.forest.perm (hperm.map Edge.ends)
    · rw [← hperm.length_eq]
      exact h.length
    · rw [List.map_cons, List.sum_cons, ← add_assoc]
      exact h.cost
    · intro f hf
      rcases List.mem_cons.1 hf with rfl | hf
      · apply joined_of_mem (e := f.ends)
        apply List.mem_map_of_mem
        exact List.mem_filter.2 ⟨List.mem_append_right Done List.mem_cons_self, decide_eq_true (le_refl f.w)⟩
      · exact (h.joined f hf).mono (upTo_subset hperm.subset)

theorem Outcome.skip {res : Option (List (Edge V W) × W)} (hDone : ∀ d ∈ Done, d.w ≤ e.w)
    (hjoined : Joined (Done.map Edge.ends) e.v1 e.v2) (h : Outcome S Done Es Cost0 res) :
    Outcome S Done (e :: Es) Cost0 res := by
  cases res with
  | none =>
    intro hconnects
    apply h
    intro a ha b hb
    apply (hconnects a ha b hb).of_joined
    intro p hp
    obtain ⟨f, hf, rfl⟩ := List.mem_map.1 hp
    rcases List.mem_append.1 hf with hf | hf
    · exact joined_of_mem (List.mem_map_of_mem (List.mem_append_left Es hf))
    · rcases List.mem_cons.1 hf with rfl | hf
      · apply hjoined.mono
        exact List.map_subset _ (List.subset_append_left Done Es)
      · exact joined_of_mem (List.mem_map_of_mem (List.mem_append_right Done hf))
  | some res =>
    obtain ⟨Tree, Cost⟩ := res
    refine ⟨h.sublist.cons e, h.forest, h.length, h.cost, ?_⟩
    intro f hf
    rcases List.mem_cons.1 hf with rfl | hf
    · exact (joined_upTo hDone hjoined).mono (upTo_subset (List.subset_append_left Done Tree))
    · exact h.joined f hf

theorem Grown.isSpanningTree {Graph Tree : List (Edge V W)} {Cost : W} (h : Grown S [] Es Cost0 Tree Cost)
    (hEs : Es.Perm Graph) (hS : ∀ v, v ∈ S ↔ v ∈ vertices Graph) : IsSpanningTree Graph Tree := by
  have hsub : Tree.Subperm Graph := h.sublist.subperm.trans hEs.subperm
  refine ⟨hsub, h.forest, (connects_congr hS).1 ?_⟩
  apply h.forest.connects (ends_mem hS hsub.subset)
  rw [List.length_map]
  exact Nat.le_of_eq h.length.symm

theorem Grown.le [IsOrderedAddMonoid W] {Graph Tree Tree' : List (Edge V W)} {Cost : W} (h : Grown S [] Es 0 Tree Cost)
    (hEs : Es.Perm Graph) (hS : ∀ v, v ∈ S ↔ v ∈ vertices Graph) (hne : S ≠ []) (hnodup : S.Nodup)
    (hTree' : IsSpanningTree Graph Tree') : Cost ≤ (Tree'.map Edge.w).sum := by
  rw [h.cost, zero_add]
  apply hTree'.forest.sum_le
  · exact Nat.succ.inj (h.length.trans (hTree'.length_eq hS hne hnodup).symm)
  · intro e he
    exact h.joined e (hEs.symm.subset (hTree'.edges.subset he))

end

end

variable [DecidableEq V]

/-! ## Roots -/

inductive Root (Forest : PMap V V) : V → V → Prop
  | root {v : V} (h : Forest.lookup v = some v) : Root Forest v v
  | parent {v p r : V} (h : Forest.lookup v = some p) (hne : p ≠ v) (hr : Root Forest p r) : Root Forest v r

section
variable {Forest : PMap V V} {v p r s : V}

section
variable (h : Root Forest v r)
include h

theorem Root.lookup : Forest.lookup r = some r := by
  induction h with
  | root h => exact h
  | parent _ _ _ ih => exact ih

theorem Root.unique (h' : Root Forest v s) : r = s := by
  induction h with
  | root h =>
    cases h' with
    | root _ => rfl
    | parent hp hne _ => exact absurd (Option.some.inj (hp.symm.trans h)) hne
  | parent h hne _ ih =>
    cases h' with
    | root hs => exact absurd (Option.some.inj (h.symm.trans hs)) hne
    | parent hp _ hs =>
      obtain rfl := Option.some.inj (h.symm.trans hp)
      exact ih hs

theorem forestFindRoot_of_root : ∃ n, ∀ fuel ≥ n, forestFindRoot fuel Forest v = some r := by
  induction h with
  | root h =>
    refine ⟨1, ?_⟩
    intro fuel hfuel
    obtain ⟨fuel, rfl⟩ := Nat.exists_eq_add_of_le' hfuel
    unfold forestFindRoot
    rw [h]
    exact if_pos rfl
  | parent h hne _ ih =>
    obtain ⟨n, hn⟩ := ih
    refine ⟨n + 1, ?_⟩
    intro fuel hfuel
    obtain ⟨fuel, rfl⟩ := Nat.exists_eq_add_of_le' (Nat.le_of_add_left_le hfuel)
    unfold forestFindRoot
    rw [h]
    exact (if_neg hne).trans (hn fuel (Nat.le_of_add_le_add_right hfuel))

theorem Root.insert_of_ne (hr : Forest.lookup s = some s) (hne : r ≠ s) : Root (Forest.insert s p) v r := by
  induction h with
  | root h => exact .root ((AList.lookup_insert_ne hne).trans h)
  | @parent v q r h hqv hq ih =>
    have hvs : v ≠ s := by
      rintro rfl
      exact hqv (Option.some.inj (h.symm.trans hr))
    exact .parent ((AList.lookup_insert_ne hvs).trans h) hqv (ih hne)

end

theorem Root.insert (h : Root Forest v s) (hp : Root Forest p r) (hne : r ≠ s) : Root (Forest.insert s p) v r := by
  have hs := h.lookup
  have hroot : Root (Forest.insert s p) s r := by
    apply Root.parent (AList.lookup_insert Forest) _ (hp.insert_of_ne hs hne)
    rintro rfl
    exact hne (hp.unique (.root hs))
  induction h with
  | root h => exact hroot
  | @parent v q s h hqv hq ih =>
    have hvs : v ≠ s := by
      rintro rfl
      exact hqv (Option.some.inj (h.symm.trans hs))
    exact .parent ((AList.lookup_insert_ne hvs).trans h) hqv (ih hne hs hroot)

end

structure Represents (Forest : PMap V V) (S : List V) (Es : List (V × V)) : Prop where
  root : ∀ v ∈ S, ∃ r, Root Forest v r
  same : ∀ u ∈ S, ∀ v ∈ S, ∀ r s, Root Forest u r → Root Forest v s → (r = s ↔ Joined Es u v)

section
variable {Forest : PMap V V} {S : List V} {Es : List (V × V)} {e : V × V}

theorem Represents.insert {r1 r2 : V} (h : Represents Forest S Es) (he1 : e.1 ∈ S) (he2 : e.2 ∈ S)
    (h1 : Root Forest e.1 r1) (h2 : Root Forest e.2 r2) (hne : r1 ≠ r2) :
    Represents (Forest.insert r1 e.2) S (e :: Es) := by
  -- the new roots are the old ones, except for those of the tree of `e.1`
  have hmap : ∀ v r, Root Forest v r → Root (Forest.insert r1 e.2) v (if r = r1 then r2 else r) := by
    intro v r hv
    split_ifs with hr
    · subst hr
      exact hv.insert h2 hne.symm
    · exact hv.insert_of_ne h1.lookup hr
  constructor
  · intro v hv
    obtain ⟨r, hr⟩ := h.root v hv
    exact ⟨_, hmap v r hr⟩
  · intro u hu v hv r s hr hs
    obtain ⟨r', hr'⟩ := h.root u hu
    obtain ⟨s', hs'⟩ := h.root v hv
    rw [hr.unique (hmap u r' hr'), hs.unique (hmap v s' hs'), joined_cons, ← h.same u hu v hv r' s' hr' hs',
      ← h.same u hu e.1 he1 r' r1 hr' h1, ← h.same e.2 he2 v hv r2 s' h2 hs', ← h.same u hu e.2 he2 r' r2 hr' h2,
      ← h.same e.1 he1 v hv r1 s' h1 hs']
    split_ifs with h1 h2 h2 <;> grind

end

section
variable [AddCommMonoid W] [LinearOrder W]

theorem addEdges_spec {S : List V} {Es Done : List (Edge V W)} {Forest : PMap V V} {Count : ℤ} {Cost0 : W}
    (hS : S ≠ []) (hnodup : S.Nodup) (hsorted : Es.Pairwise fun e f => e.w ≤ f.w)
    (hDone : ∀ d ∈ Done, ∀ e ∈ Es, d.w ≤ e.w) (hmem : ∀ e ∈ Done ++ Es, e.v1 ∈ S ∧ e.v2 ∈ S)
    (hforest : IsForest (Done.map Edge.ends)) (hrep : Represents Forest S (Done.map Edge.ends))
    (hCount : Count = (S.length : ℤ) - 1 - Done.length) :
    ∃ n res, (∀ fuel ≥ n, addEdges fuel Es Count Forest [] Cost0 = some res) ∧ Outcome S Done Es Cost0 res := by
  induction Es generalizing Done Forest Count Cost0 with
  | nil =>
    by_cases hzero : Count = 0
    · refine ⟨0, some ([], Cost0), ?_, grown_nil hforest hmem hDone (by omega)⟩
      intro fuel _
      exact if_pos hzero
    · refine ⟨0, none, ?_, ?_⟩
      · intro fuel _
        exact if_neg hzero
      · intro hconnects
        rw [List.append_nil] at hconnects hmem
        have hle := hconnects.length_le hnodup
        have hends : ∀ p ∈ Done.map Edge.ends, p.1 ∈ S ∧ p.2 ∈ S := by
          intro p hp
          obtain ⟨d, hd, rfl⟩ := List.mem_map.1 hp
          exact hmem d hd
        have hlt := hforest.length_lt hends hS
        rw [List.length_map] at hle hlt
        omega
  | cons e Es ih =>
    obtain ⟨he, hEs⟩ := List.pairwise_cons.1 hsorted
    by_cases hzero : Count = 0
    · refine ⟨0, some ([], Cost0), ?_, grown_nil hforest hmem hDone (by omega)⟩
      intro fuel _
      exact if_pos hzero
    · obtain ⟨he1, he2⟩ := hmem e (List.mem_append_right Done List.mem_cons_self)
      obtain ⟨r1, h1⟩ := hrep.root e.v1 he1
      obtain ⟨r2, h2⟩ := hrep.root e.v2 he2
      obtain ⟨n1, hn1⟩ := forestFindRoot_of_root h1
      obtain ⟨n2, hn2⟩ := forestFindRoot_of_root h2
      have hsame := hrep.same e.v1 he1 e.v2 he2 r1 r2 h1 h2
      have hDonee : ∀ d ∈ Done, d.w ≤ e.w := fun d hd => hDone d hd e List.mem_cons_self
      by_cases hne : r1 ≠ r2
      · have hDone' : ∀ d ∈ e :: Done, ∀ f ∈ Es, d.w ≤ f.w := by
          intro d hd f hf
          rcases List.mem_cons.1 hd with rfl | hd
          · exact he f hf
          · exact hDone d hd f (List.mem_cons_of_mem e hf)
        have hmem' : ∀ d ∈ (e :: Done) ++ Es, d.v1 ∈ S ∧ d.v2 ∈ S := fun d hd =>
          hmem d (List.perm_middle.symm.subset hd)
        have hforest' : IsForest ((e :: Done).map Edge.ends) :=
          isForest_cons.2 ⟨hforest, fun hjoined => hne (hsame.2 hjoined)⟩
        have hrep' : Represents (Forest.insert r1 e.v2) S ((e :: Done).map Edge.ends) :=
          hrep.insert (e := e.ends) he1 he2 h1 h2 hne
        have hCount' : Count - 1 = (S.length : ℤ) - 1 - (e :: Done).length := by
          rw [List.length_cons]
          omega
        obtain ⟨n, res, hrun, hres⟩ := @ih (e :: Done) _ _ (Cost0 + e.w) hEs hDone' hmem' hforest' hrep' hCount'
        refine ⟨max n (max n1 n2), res.map fun (Tree1, Cost) => (e :: Tree1, Cost), ?_, hres.take⟩
        intro fuel hfuel
        obtain ⟨hn, hfuel⟩ := max_le_iff.1 hfuel
        obtain ⟨hf1, hf2⟩ := max_le_iff.1 hfuel
        unfold addEdges
        rw [if_neg hzero, hn1 fuel hf1, Option.bind_eq_bind, Option.bind_some, hn2 fuel hf2, Option.bind_eq_bind,
          Option.bind_some, if_pos hne]
        rw [hrun fuel hn]
        rfl
      · have hDone' : ∀ d ∈ Done, ∀ f ∈ Es, d.w ≤ f.w := fun d hd f hf => hDone d hd f (List.mem_cons_of_mem e hf)
        have hmem' : ∀ d ∈ Done ++ Es, d.v1 ∈ S ∧ d.v2 ∈ S := fun d hd =>
          hmem d (((List.sublist_cons_self e Es).append_left Done).subset hd)
        obtain ⟨n, res, hrun, hres⟩ := @ih Done _ _ Cost0 hEs hDone' hmem' hforest hrep hCount
        refine ⟨max n (max n1 n2), res, ?_, hres.skip hDonee (hsame.1 (not_not.1 hne))⟩
        intro fuel hfuel
        obtain ⟨hn, hfuel⟩ := max_le_iff.1 hfuel
        obtain ⟨hf1, hf2⟩ := max_le_iff.1 hfuel
        unfold addEdges
        rw [if_neg hzero, hn1 fuel hf1, Option.bind_eq_bind, Option.bind_some, hn2 fuel hf2, Option.bind_eq_bind,
          Option.bind_some, if_neg hne]
        exact hrun fuel hn

end

/-! ## Vertices -/

theorem mem_keys_checkGraph (Graph : List (Edge V W)) (NodesMap : PMap V ℕ) (v : V) :
    v ∈ (checkGraph Graph NodesMap).keys ↔ v ∈ vertices Graph ∨ v ∈ NodesMap.keys := by
  induction Graph generalizing NodesMap with
  | nil => exact (or_iff_right List.not_mem_nil).symm
  | cons e Graph ih =>
    unfold checkGraph
    rw [ih, ← AList.mem_keys, AList.mem_insert, AList.mem_insert, AList.mem_keys]
    unfold vertices
    rw [List.flatMap_cons, List.mem_append, List.mem_pair]
    tauto

theorem lookup_foldl_insert (Nodes : List V) (Forest : PMap V V) {v : V} (hv : v ∈ Nodes ∨ Forest.lookup v = some v) :
    (Nodes.foldl (fun Forest Node => Forest.insert Node Node) Forest).lookup v = some v := by
  induction Nodes generalizing Forest with
  | nil => exact hv.resolve_left List.not_mem_nil
  | cons u Nodes ih =>
    apply ih
    by_cases huv : v = u
    · rw [huv]
      exact .inr (AList.lookup_insert Forest)
    · rw [AList.lookup_insert_ne huv]
      exact hv.imp_left fun hv => (List.mem_cons.1 hv).resolve_left huv

theorem represents_nil (Nodes : List V) :
    Represents (Nodes.foldl (fun (Forest : PMap V V) Node => Forest.insert Node Node) ∅) Nodes [] := by
  have hroot : ∀ v ∈ Nodes, Root (Nodes.foldl (fun (Forest : PMap V V) Node => Forest.insert Node Node) ∅) v v :=
    fun v hv => .root (lookup_foldl_insert Nodes ∅ (.inl hv))
  refine ⟨fun v hv => ⟨v, hroot v hv⟩, ?_⟩
  intro u hu v hv r s hr hs
  rw [← (hroot u hu).unique hr, ← (hroot v hv).unique hs]
  constructor
  · rintro rfl
    exact joined_refl
  · intro hjoined
    exact hjoined.of_equivalence eq_equivalence fun e he => absurd he List.not_mem_nil

theorem mst_spec {V W : Type} [DecidableEq V] [AddCommMonoid W] [LinearOrder W] [IsOrderedAddMonoid W]
    (sort3 : List (Edge V W) → List (Edge V W)) (hperm : ∀ Es, (sort3 Es).Perm Es)
    (hsorted : ∀ Es, (sort3 Es).Pairwise fun e f => e.w ≤ f.w) (Graph : List (Edge V W)) :
    ∃ n res, (∀ fuel ≥ n, mst sort3 fuel Graph = some res) ∧
      (res = none ↔ Graph = [] ∨ ¬ Connects (Graph.map Edge.ends) (vertices Graph)) ∧
      ∀ Tree Cost, res = some (Tree, Cost) → IsSpanningTree Graph Tree ∧ Cost = (Tree.map Edge.w).sum ∧
        ∀ Tree', IsSpanningTree Graph Tree' → Cost ≤ (Tree'.map Edge.w).sum := by
  by_cases hGraph : Graph = []
  · subst hGraph
    have hnil : sort3 [] = [] := (hperm []).eq_nil
    refine ⟨0, none, ?_, iff_of_true rfl (.inl rfl), ?_⟩
    · intro fuel _
      unfold mst
      rw [hnil]
      rfl
    · intro Tree Cost h
      exact absurd h.symm (Option.some_ne_none _)
  · have hS : ∀ v, v ∈ (checkGraph Graph ∅).keys ↔ v ∈ vertices Graph := by
      intro v
      rw [mem_keys_checkGraph, AList.keys_empty]
      exact or_iff_left List.not_mem_nil
    have hmem : ∀ e ∈ [] ++ sort3 Graph, e.v1 ∈ (checkGraph Graph ∅).keys ∧ e.v2 ∈ (checkGraph Graph ∅).keys := by
      intro e he
      obtain ⟨h1, h2⟩ := mem_vertices ((hperm Graph).subset he)
      exact ⟨(hS _).2 h1, (hS _).2 h2⟩
    have hnodup := AList.keys_nodup (checkGraph Graph ∅)
    have hne : (checkGraph Graph ∅).keys ≠ [] := by
      obtain ⟨e, he⟩ := List.exists_mem_of_ne_nil Graph hGraph
      exact List.ne_nil_of_mem ((hS e.v1).2 (mem_vertices he).1)
    obtain ⟨n, res, hrun, hres⟩ := @addEdges_spec _ _ _ _ _ (checkGraph Graph ∅).keys
      (sort3 Graph) [] _ _ 0 hne hnodup (hsorted Graph) (fun d hd => absurd hd List.not_mem_nil) hmem isForest_nil
      (represents_nil _) (sub_zero _).symm
    have hfail : res = none ↔ ¬ Connects (Graph.map Edge.ends) (vertices Graph) := by
      rw [← connects_congr hS]
      constructor
      · rintro rfl hconnects
        apply hres
        intro a ha b hb
        exact (hconnects a ha b hb).mono ((hperm Graph).symm.map Edge.ends).subset
      · intro hnot
        by_contra hsome
        obtain ⟨⟨T, Cost⟩, rfl⟩ := Option.ne_none_iff_exists'.1 hsome
        have htree := Grown.isSpanningTree hres (hperm Graph) hS
        apply hnot
        intro a ha b hb
        exact ((connects_congr hS).2 htree.connects a ha b hb).mono (List.map_subset _ htree.edges.subset)
    refine ⟨n, res, hrun, hfail.trans (or_iff_right hGraph).symm, ?_⟩
    rintro T Cost rfl
    refine ⟨Grown.isSpanningTree hres (hperm Graph) hS, ?_, ?_⟩
    · rw [Grown.cost hres, zero_add]
    · intro T' hT'
      exact Grown.le hres (hperm Graph) hS hne hnodup hT'

theorem mst_spec_triangle : let Graph : List (Edge ℕ ℤ) := [⟨2, 0, 3⟩, ⟨1, 1, 0⟩, ⟨0, 1, -1⟩, ⟨1, 2, 2⟩]
    ∃ n res, (∀ fuel ≥ n, mst (fun Es => Es.mergeSort fun e f => e.w ≤ f.w) fuel Graph = some res) ∧
      (res = none ↔ Graph = [] ∨ ¬ Connects (Graph.map Edge.ends) (vertices Graph)) ∧
      ∀ Tree Cost, res = some (Tree, Cost) → IsSpanningTree Graph Tree ∧ Cost = (Tree.map Edge.w).sum ∧
        ∀ Tree', IsSpanningTree Graph Tree' → Cost ≤ (Tree'.map Edge.w).sum := by
  intro Graph
  apply mst_spec
  · intro Es
    exact List.mergeSort_perm Es _
  · intro Es
    have hsorted := @List.pairwise_mergeSort _ (fun e f : Edge ℕ ℤ => e.w ≤ f.w) ?_ ?_ Es
    · exact hsorted.imp of_decide_eq_true
    · intro e f g hef hfg
      exact decide_eq_true ((of_decide_eq_true hef).trans (of_decide_eq_true hfg))
    · intro e f
      rw [Bool.or_eq_true, decide_eq_true_eq, decide_eq_true_eq]
      exact le_total e.w f.w

end Picat.Mst
