import Picat.Graph.Edges

/-!
# `acyclic`: forests by leaf elimination

* `acyclic_iff` : there is a solution just when the entries of every pair agree, edges join vertices that are in and make
  a forest.
-/

namespace Picat.Graph
open Forests List

variable {V ι : Type} [DecidableEq V]

/-- `ReifMap`: the values of `Time #> Time1`. -/
abbrev ReifMap (V : Type) := V → V → Option Bool

def putReif (reif : ReifMap V) (v v1 : V) (bgt : Bool) : ReifMap V :=
  fun x y => if x = v ∧ y = v1 then some bgt else reif x y

/-- `#~BGT1 #\/ #~TmpBGT`, where the comparison the other way is in the map. -/
def NotBoth (reif : ReifMap V) (v v1 : V) (bgt : Bool) : Prop :=
  ∀ tmpBgt, reif v1 v = some tmpBgt → bgt = false ∨ tmpBgt = false

section
variable (tMap : V → ℕ) (v : V)

def constrainNeibsAux (bgt1 b1 : Bool) : List (V × Bool) → ReifMap V → Prop × ReifMap V
  | [], reif => (True, reif)
  | (v2, b2) :: l, reif =>
    let bgt2 := decide (tMap v2 < tMap v)
    let reif1 := putReif reif v v2 bgt2
    let rest := constrainNeibsAux bgt1 b1 l reif1
    (NotBoth reif1 v v2 bgt2 ∧ (b1 = false ∨ b2 = false ∨ bgt1 = true ∨ bgt2 = true) ∧ rest.1, rest.2)

def constrainNeibs : List (V × Bool) → ReifMap V → Prop × ReifMap V
  | [], reif => (True, reif)
  | [_], reif => (True, reif)
  | (v1, b1) :: p :: l, reif =>
    let bgt1 := decide (tMap v1 < tMap v)
    let reif1 := putReif reif v v1 bgt1
    let aux := constrainNeibsAux tMap v bgt1 b1 (p :: l) reif1
    let rest := constrainNeibs (p :: l) aux.2
    (NotBoth reif1 v v1 bgt1 ∧ aux.1 ∧ rest.1, rest.2)

end

def maxT (n : ℕ) : ℕ := if n % 2 = 0 then n / 2 - 1 else n / 2

section
variable (lt : V → V → Bool) (Vs : List (V × Boolean ι)) (Es : List (V × V × Boolean ι)) (σ : ι → Bool) (time : V → ℕ)

def constrainVertices (r : EdgeTables V ι) : List (V × Boolean ι) → ReifMap V → Prop
  | [], _ => True
  | (v, _) :: vs, reif =>
    let c := constrainNeibs time v ((r.aMap v).map fun p => (p.1, p.2.val σ)) reif
    (¬ 2 ≤ sumNeibs r σ v → time v = 0) ∧ c.1 ∧ constrainVertices r vs c.2

structure acyclic : Prop where
  dom : ∀ v b, (v, b) ∈ Vs → time v ≤ maxT Vs.length
  equal : ∀ p ∈ (registerEdges lt Es).equal, p.1.val σ = p.2.val σ
  ends : EndsPosted Vs σ (registerEdges lt Es)
  vertices : constrainVertices σ time (registerEdges lt Es) Vs fun _ _ => none

end

/-! ## The constraints on the neighbours -/

section
variable {tMap : V → ℕ} {v : V} {reif : ReifMap V}

def Compares (tMap : V → ℕ) (reif : ReifMap V) : Prop := ∀ u w b, reif u w = some b → b = decide (tMap w < tMap u)

def EarlierOf (tMap : V → ℕ) (v : V) (p q : V × Bool) : Prop :=
  p.2 = false ∨ q.2 = false ∨ tMap p.1 < tMap v ∨ tMap q.1 < tMap v

theorem Compares.put (h : Compares tMap reif) (v v1 : V) :
    Compares tMap (putReif reif v v1 (decide (tMap v1 < tMap v))) := by
  intro u w b hb
  unfold putReif at hb
  split_ifs at hb with huw
  · rw [huw.1, huw.2, ← Option.some.inj hb]
  · exact h u w b hb

omit [DecidableEq V] in
theorem Compares.notBoth (h : Compares tMap reif) (v v1 : V) : NotBoth reif v v1 (decide (tMap v1 < tMap v)) := by
  intro tmpBgt htmp
  rw [h v1 v tmpBgt htmp, decide_eq_false_iff_not, decide_eq_false_iff_not]
  omega

theorem constrainNeibsAux_spec (b1 : Bool) (v1 : V) (l : List (V × Bool)) (h : Compares tMap reif) :
    Compares tMap (constrainNeibsAux tMap v (decide (tMap v1 < tMap v)) b1 l reif).2 ∧
      ((constrainNeibsAux tMap v (decide (tMap v1 < tMap v)) b1 l reif).1 ↔ ∀ q ∈ l, EarlierOf tMap v (v1, b1) q) := by
  induction l generalizing reif with
  | nil => exact ⟨h, iff_of_true trivial fun q hq => absurd hq not_mem_nil⟩
  | cons q l ih =>
    obtain ⟨v2, b2⟩ := q
    have hput := h.put v v2
    obtain ⟨hkept, hiff⟩ := ih hput
    unfold constrainNeibsAux
    refine ⟨hkept, ?_⟩
    dsimp only
    rw [forall_mem_cons, hiff, and_iff_right (hput.notBoth v v2)]
    unfold EarlierOf
    rw [decide_eq_true_eq, decide_eq_true_eq]

theorem constrainNeibs_spec (l : List (V × Bool)) (h : Compares tMap reif) :
    Compares tMap (constrainNeibs tMap v l reif).2 ∧
      ((constrainNeibs tMap v l reif).1 ↔ l.Pairwise (EarlierOf tMap v)) := by
  induction l generalizing reif with
  | nil => exact ⟨h, iff_of_true trivial List.Pairwise.nil⟩
  | cons p l ih =>
    obtain ⟨v1, b1⟩ := p
    cases l with
    | nil => exact ⟨h, iff_of_true trivial (pairwise_singleton _ _)⟩
    | cons q l =>
      have hput := h.put v v1
      obtain ⟨hkept, hiff⟩ := @constrainNeibsAux_spec _ _ _ v _ b1 v1 (q :: l) hput
      obtain ⟨hkept', hiff'⟩ := ih hkept
      unfold constrainNeibs
      refine ⟨hkept', ?_⟩
      dsimp only
      rw [pairwise_cons, hiff, hiff', and_iff_right (hput.notBoth v v1)]

omit [DecidableEq V] in
theorem EarlierOf.symm {p q : V × Bool} (h : EarlierOf tMap v p q) : EarlierOf tMap v q p := by
  unfold EarlierOf at *
  tauto

end

/-! ## The constraint -/

section
variable {lt : V → V → Bool} {Vs : List (V × Boolean ι)} {Es : List (V × V × Boolean ι)} {σ : ι → Bool}
variable {time : V → ℕ}

theorem constrainVertices_iff (r : EdgeTables V ι) (vs : List (V × Boolean ι)) {reif : ReifMap V}
    (h : Compares time reif) :
    constrainVertices σ time r vs reif ↔ ∀ v b, (v, b) ∈ vs → (¬ 2 ≤ sumNeibs r σ v → time v = 0) ∧
      ((r.aMap v).map fun p => (p.1, p.2.val σ)).Pairwise (EarlierOf time v) := by
  induction vs generalizing reif with
  | nil => exact iff_of_true trivial fun v b hmem => absurd hmem not_mem_nil
  | cons p vs ih =>
    obtain ⟨w, b⟩ := p
    obtain ⟨hkept, hiff⟩ := @constrainNeibs_spec _ _ time w _ ((r.aMap w).map fun p => (p.1, p.2.val σ)) h
    unfold constrainVertices
    dsimp only
    rw [ih hkept, hiff, ← and_assoc]
    constructor
    · rintro ⟨hw, hrest⟩ v b' hmem
      rcases mem_cons.1 hmem with heq | hmem
      · simp only [Prod.mk.injEq] at heq
        rw [heq.1]
        exact hw
      · exact hrest v b' hmem
    · intro hall
      exact ⟨hall w b mem_cons_self, fun v b' hmem => hall v b' (mem_cons_of_mem _ hmem)⟩

theorem pairwise_iff (hagree : PairsAgree Es σ) (v : V) :
    (((registerEdges lt Es).aMap v).map fun p => (p.1, p.2.val σ)).Pairwise (EarlierOf time v) ↔
      ∀ a b, a ≠ b → UEdge Es σ v a → UEdge Es σ v b → time a < time v ∨ time b < time v := by
  have hr := registered_both lt Es
  have hagree' := entriesAgree_bothWays.2 hagree
  rw [pairwise_map]
  constructor
  · intro hpair a b hab ha hb
    obtain ⟨ba, hba, hva⟩ := hr.exists_of_inEdge hagree' (inEdge_bothWays.2 ha)
    obtain ⟨bb, hbb, hvb⟩ := hr.exists_of_inEdge hagree' (inEdge_bothWays.2 hb)
    have hsymm : Std.Symm fun p q : V × Boolean ι =>
        EarlierOf time v (p.1, p.2.val σ) (q.1, q.2.val σ) := ⟨fun _ _ h => EarlierOf.symm h⟩
    have hor := hpair.forall ((hr.adj v a ba).2 hba) ((hr.adj v b bb).2 hbb) (fun heq => hab (congrArg Prod.fst heq))
    unfold EarlierOf at hor
    simp only [hva, hvb, Bool.true_eq_false, false_or] at hor
    exact hor
  · intro hall
    apply (List.Nodup.of_map _ (hr.nodup v)).pairwise_of_forall_ne
    rintro ⟨a, ba⟩ hma ⟨b, bb⟩ hmb hne
    unfold EarlierOf
    dsimp only
    cases hva : ba.val σ with
    | false => exact .inl rfl
    | true =>
      cases hvb : bb.val σ with
      | false => exact .inr (.inl rfl)
      | true =>
        have ha := (hr.adj v a ba).1 hma
        have hb := (hr.adj v b bb).1 hmb
        have hab : a ≠ b := by
          rintro rfl
          rw [ha, Option.some.injEq] at hb
          exact hne (by rw [hb])
        refine .inr (.inr (hall a b hab ?_ ?_))
        · exact inEdge_bothWays.1 ((hr.val_iff hagree' ha).1 hva)
        · exact inEdge_bothWays.1 ((hr.val_iff hagree' hb).1 hvb)

omit [DecidableEq V] in
theorem adj_iff (hloop : ∀ u v b, (u, v, b) ∈ Es → u ≠ v) {u v : V} : (inGraph Es σ).Adj u v ↔ UEdge Es σ u v := by
  rw [inGraph_adj]
  apply and_iff_right_of_imp
  rintro (⟨b, hmem, -⟩ | ⟨b, hmem, -⟩)
  · exact hloop u v b hmem
  · exact (hloop v u b hmem).symm

theorem card_le_length (hnodup : (Vs.map Prod.fst).Nodup) : (inVertices Vs σ).card ≤ Vs.length := by
  have := @card_add_zeros_le _ _ _ Vs σ hnodup
  omega

theorem eq_of_sum_lt (hagree : PairsAgree Es σ) {v a b : V} (h : ¬ 2 ≤ sumNeibs (registerEdges lt Es) σ v)
    (ha : UEdge Es σ v a) (hb : UEdge Es σ v b) : a = b := by
  rw [(registered_both lt Es).sumNeibs_eq (entriesAgree_bothWays.2 hagree)] at h
  have hone : (neibsIn (bothWays Es) σ v).card ≤ 1 := by omega
  rw [Finset.card_le_one] at hone
  exact hone a (mem_neibsIn.2 (inEdge_bothWays.2 ha)) b (mem_neibsIn.2 (inEdge_bothWays.2 hb))

/-- For distinct vertices and edges between them without loops, `acyclic` has a solution just when the entries of every
pair of vertices have one value, the edges that are in join vertices that are in, and they make a forest. -/
theorem acyclic_iff (hnodup : (Vs.map Prod.fst).Nodup) (hends : Joins Vs Es)
    (hloop : ∀ u v b, (u, v, b) ∈ Es → u ≠ v) (hlt : ∀ u v, u ≠ v → lt u v = !lt v u) :
    (∃ time, acyclic lt Vs Es σ time) ↔
      PairsAgree Es σ ∧ (∀ u v, InEdge Es σ u v → InVertex Vs σ u ∧ InVertex Vs σ v) ∧ (inGraph Es σ).IsAcyclic := by
  have hr := registered_both lt Es
  have hlist : Joins Vs (bothWays Es) := by
    intro u v b hmem
    rcases mem_bothWays.1 hmem with h | h
    · exact hends u v b h
    · exact (hends v u b h).symm
  have hstart : ∀ time : V → ℕ, Compares time fun _ _ => none := fun time u w b hb => absurd hb.symm (Option.some_ne_none b)
  constructor
  · intro hp
    obtain ⟨time, h⟩ := hp
    have hagree' := hr.agree_iff.1 h.equal
    have hagree := entriesAgree_bothWays.1 hagree'
    have hvertices := (constrainVertices_iff _ Vs (hstart time)).1 h.vertices
    have hends' : ∀ u v, UEdge Es σ u v → InVertex Vs σ u ∧ InVertex Vs σ v := by
      intro u v huv
      have hne := ((adj_iff hloop).2 huv).ne
      -- the ends are posted for the orientation that is in order
      cases hl : lt u v with
      | true => exact hr.ends hnodup hagree' h.ends hl (inEdge_bothWays.2 huv)
      | false =>
        have hl' : lt v u = true := by
          rw [hlt v u hne.symm, hl]
          rfl
        exact (hr.ends hnodup hagree' h.ends hl' (inEdge_bothWays.2 huv.symm)).symm
    refine ⟨hagree, fun u v huv => hends' u v (.inl huv), ?_⟩
    apply isAcyclic_of_earlier (t := time)
    intro v a b hab ha hb
    rw [adj_iff hloop] at ha hb
    obtain ⟨bv, hmem, -⟩ := (hends' v a ha).1
    exact (pairwise_iff hagree v).1 (hvertices v bv hmem).2 a b hab ha hb
  · intro hp
    obtain ⟨hagree, hjoin, hforest⟩ := hp
    have hagree' := entriesAgree_bothWays.2 hagree
    have hjoin' : ∀ u v, UEdge Es σ u v → InVertex Vs σ u ∧ InVertex Vs σ v := by
      rintro u v (huv | hvu)
      · exact hjoin u v huv
      · exact (hjoin v u hvu).symm
    have hS : ∀ u v, (inGraph Es σ).Adj u v → u ∈ inVertices Vs σ ∧ v ∈ inVertices Vs σ := by
      intro u v huv
      rw [adj_iff hloop] at huv
      exact ⟨mem_inVertices.2 (hjoin' u v huv).1, mem_inVertices.2 (hjoin' u v huv).2⟩
    have htimes := leafTimes_armTime hforest hS
    refine ⟨armTime (inGraph Es σ) (((inVertices Vs σ).card - 1) / 2), ?_, hr.agree_iff.2 hagree', ?_,
      (constrainVertices_iff _ Vs (hstart _)).2 ?_⟩
    · intro v _ _
      have hle := armTime_le (G := inGraph Es σ) (((inVertices Vs σ).card - 1) / 2) v
      have hcard := @card_le_length _ _ _ Vs σ hnodup
      unfold maxT
      split_ifs with heven <;> omega
    · apply hr.endsPosted hnodup hlist hagree'
      intro u v huv
      exact hjoin' u v (inEdge_bothWays.1 huv)
    · intro v bv _
      refine ⟨?_, (pairwise_iff hagree v).2 ?_⟩
      · intro hsum
        apply htimes.leaf v
        intro a b ha hb
        rw [adj_iff hloop] at ha hb
        exact eq_of_sum_lt hagree hsum ha hb
      · intro a b hab ha hb
        exact htimes.earlier v a b hab ((adj_iff hloop).2 ha) ((adj_iff hloop).2 hb)

end

theorem acyclic_iff_edge :
    ∃ time, acyclic (fun u v => decide (u < v)) [(0, .one), (1, .one)] [(0, 1, .var 0)] (fun _ : ℕ => true) time := by
  refine (acyclic_iff (by decide) ?_ ?_ ?_).2 ⟨?_, ?_, ?_⟩
  · intro u v b hmem
    fin_cases hmem
    decide
  · intro u v b hmem
    fin_cases hmem
    decide
  · intro u v hne
    rw [Bool.eq_iff_iff, Bool.not_eq_true', decide_eq_true_eq, decide_eq_false_iff_not]
    omega
  · intro u v b b' hb hb'
    simp only [Listed, mem_singleton, Prod.mk.injEq] at hb hb'
    rcases hb with ⟨-, -, rfl⟩ | ⟨-, -, rfl⟩ <;> rcases hb' with ⟨-, -, rfl⟩ | ⟨-, -, rfl⟩ <;> rfl
  · rintro u v ⟨b, hmem, -⟩
    fin_cases hmem
    exact ⟨⟨.one, by decide, rfl⟩, .one, by decide, rfl⟩
  · apply isAcyclic_of_earlier (t := fun _ => 0)
    intro v a b hab ha hb
    rw [inGraph_adj, UEdge, inEdge_iff, inEdge_iff] at ha hb
    simp [Boolean.val] at ha hb
    omega

/-- An edge in both orientations, in as one and out as the other. -/
theorem acyclic_both_orientations :
    ¬ ((∃ time, acyclic (fun u v => decide (u < v)) [(0, .one), (1, .one)] [(0, 1, .var 0), (1, 0, .var 1)]
        (fun i => i == 0) time) ↔
      (∀ u v, InEdge [(0, 1, .var 0), (1, 0, .var 1)] (fun i => i == 0) u v →
        InVertex [(0, .one), (1, .one)] (fun i => i == 0) u ∧ InVertex [(0, .one), (1, .one)] (fun i => i == 0) v) ∧
      (inGraph [(0, 1, .var 0), (1, 0, .var 1)] (fun i => i == 0)).IsAcyclic) := by
  intro hiff
  obtain ⟨time, h⟩ := hiff.2 ⟨by
    rintro u v ⟨b, hmem, -⟩
    fin_cases hmem
    · exact ⟨⟨.one, by decide, rfl⟩, .one, by decide, rfl⟩
    · exact ⟨⟨.one, by decide, rfl⟩, .one, by decide, rfl⟩, by
    apply isAcyclic_of_earlier (t := fun _ => 0)
    intro v a b hab ha hb
    rw [inGraph_adj, UEdge, inEdge_iff, inEdge_iff] at ha hb
    simp [Boolean.val] at ha hb
    omega⟩
  have hequal := h.equal (.var 1, .var 0) (by decide)
  exact absurd hequal (by decide)

end Picat.Graph
