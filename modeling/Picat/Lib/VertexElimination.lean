import Mathlib.Data.List.Chain
import Mathlib.Data.Set.Insert

/-!
# Elimination of a vertex of a directed graph

* `Bypassed R p u v` : a path from `u` to `v` through vertices that are eliminated before both.
-/

namespace Elimination
open Relation List

variable {α : Type*} {R : α → α → Prop} {w : α}

def eliminate (R : α → α → Prop) (w u v : α) : Prop := u ≠ w ∧ v ≠ w ∧ (R u v ∨ R u w ∧ R w v)

/-! ## Paths -/

theorem path_of_eliminate {u v : α} (h : TransGen (eliminate R w) u v) : TransGen R u v := by
  refine TransGen.closed ?_ u v h
  rintro u v ⟨-, -, huv | ⟨huw, hwv⟩⟩
  · exact TransGen.single huv
  · exact (TransGen.single huw).tail hwv

theorem reach_of_eliminate {u v : α} (h : ReflTransGen (eliminate R w) u v) : ReflTransGen R u v := by
  rcases reflTransGen_iff_eq_or_transGen.1 h with rfl | hpath
  · exact ReflTransGen.refl
  · exact (path_of_eliminate hpath).to_reflTransGen

theorem eliminate_of_path {u v : α} (hu : u ≠ w) (h : TransGen R u v) : (v ≠ w → TransGen (eliminate R w) u v) ∧
      (v = w → ∃ x, x ≠ w ∧ ReflTransGen (eliminate R w) u x ∧ R x w) := by
  induction h with
  | single huv =>
    refine ⟨fun hv => TransGen.single ⟨hu, hv, .inl huv⟩, ?_⟩
    rintro rfl
    exact ⟨u, hu, ReflTransGen.refl, huv⟩
  | @tail v y _ hvy ih =>
    by_cases hv : v = w
    · obtain ⟨x, hx, hreach, hxw⟩ := ih.2 hv
      refine ⟨fun hy => ?_, fun _ => ⟨x, hx, hreach, hxw⟩⟩
      rw [hv] at hvy
      exact TransGen.tail' hreach ⟨hx, hy, .inr ⟨hxw, hvy⟩⟩
    · have hpath := ih.1 hv
      refine ⟨fun hy => hpath.tail ⟨hv, hy, .inl hvy⟩, ?_⟩
      rintro rfl
      exact ⟨v, hv, hpath.to_reflTransGen, hvy⟩

theorem reach_eliminate {u v : α} (hu : u ≠ w) (hv : v ≠ w) :
    ReflTransGen (eliminate R w) u v ↔ ReflTransGen R u v := by
  refine ⟨reach_of_eliminate, ?_⟩
  intro h
  rcases reflTransGen_iff_eq_or_transGen.1 h with rfl | hpath
  · exact ReflTransGen.refl
  · exact ((eliminate_of_path hu hpath).1 hv).to_reflTransGen

/-! ## Strong connection -/

def StronglyConnected (R : α → α → Prop) (s : Set α) : Prop := ∀ u ∈ s, ∀ v ∈ s, ReflTransGen R u v

theorem stronglyConnected_of_notMem {s : Set α} (hw : w ∉ s) :
    StronglyConnected (eliminate R w) s ↔ StronglyConnected R s := by
  have hne : ∀ u ∈ s, u ≠ w := fun u hu => ne_of_mem_of_not_mem hu hw
  constructor
  · intro h u hu v hv
    exact reach_of_eliminate (h u hu v hv)
  · intro h u hu v hv
    exact (reach_eliminate (hne u hu) (hne v hv)).2 (h u hu v hv)

theorem exists_arc_out {v : α} (h : ReflTransGen R w v) (hne : v ≠ w) : ∃ x, x ≠ w ∧ R w x := by
  induction h with
  | refl => exact absurd rfl hne
  | @tail y z _ hyz ih =>
    by_cases hy : y = w
    · exact ⟨z, hne, hy ▸ hyz⟩
    · exact ih hy

theorem exists_arc_in {u : α} (h : ReflTransGen R u w) (hne : u ≠ w) : ∃ x, x ≠ w ∧ R x w := by
  rcases reflTransGen_iff_eq_or_transGen.1 h with heq | hpath
  · exact absurd heq.symm hne
  · obtain ⟨x, hx, -, hxw⟩ := (eliminate_of_path hne hpath).2 rfl
    exact ⟨x, hx, hxw⟩

theorem stronglyConnected_iff {s : Set α} (hw : w ∈ s) (hends : ∀ u v, R u v → u ∈ s ∧ v ∈ s) : StronglyConnected R s ↔
      (∀ v ∈ s, v = w) ∨
        ((∃ x, x ≠ w ∧ R x w) ∧ (∃ x, x ≠ w ∧ R w x) ∧ StronglyConnected (eliminate R w) (s \ {w})) := by
  constructor
  · intro h
    by_cases halone : ∀ v ∈ s, v = w
    · exact .inl halone
    · push Not at halone
      obtain ⟨v, hv, hne⟩ := halone
      refine .inr ⟨exists_arc_in (h v hv w hw) hne, exists_arc_out (h w hw v hv) hne, ?_⟩
      intro u hu y hy
      exact (reach_eliminate hu.2 hy.2).2 (h u hu.1 y hy.1)
  · rintro (halone | ⟨⟨x, hx, hxw⟩, ⟨y, hy, hwy⟩, h⟩)
    · intro u hu v hv
      rw [halone u hu, halone v hv]
    · have hxs : x ∈ s \ {w} := ⟨(hends x w hxw).1, hx⟩
      have hys : y ∈ s \ {w} := ⟨(hends w y hwy).2, hy⟩
      have hout : ∀ v ∈ s, ReflTransGen R w v := by
        intro v hv
        by_cases hvw : v = w
        · rw [hvw]
        · exact ReflTransGen.head hwy (reach_of_eliminate (h y hys v ⟨hv, hvw⟩))
      have hin : ∀ u ∈ s, ReflTransGen R u w := by
        intro u hu
        by_cases huw : u = w
        · rw [huw]
        · exact (reach_of_eliminate (h u ⟨hu, huw⟩ x hxs)).tail hxw
      intro u hu v hv
      exact (hin u hu).trans (hout v hv)

def Acyclic (R : α → α → Prop) : Prop := ∀ v, ¬ TransGen R v v

theorem acyclic_iff_eliminate : Acyclic R ↔ ¬ R w w ∧ Acyclic (eliminate R w) := by
  constructor
  · intro h
    exact ⟨fun hw => h w (TransGen.single hw), fun v hv => h v (path_of_eliminate hv)⟩
  · rintro ⟨hw, h⟩ v hv
    by_cases hvw : v = w
    · subst hvw
      obtain ⟨c, hvc, hcv⟩ := TransGen.head'_iff.1 hv
      have hc : c ≠ v := by
        rintro rfl
        exact hw hvc
      rcases reflTransGen_iff_eq_or_transGen.1 hcv with heq | hpath
      · exact hc heq.symm
      · obtain ⟨x, hx, hreach, hxv⟩ := (eliminate_of_path hc hpath).2 rfl
        exact h c (TransGen.tail' hreach ⟨hx, hc, .inr ⟨hxv, hvc⟩⟩)
    · exact h v ((eliminate_of_path hvw hv).1 hvw)

/-! ## Several vertices -/

/-- The vertices of `p` are eliminated one after the other. -/
def eliminateAll (R : α → α → Prop) (p : List α) : α → α → Prop := p.foldl (fun R w => eliminate R w) R

/-- A path from `u` to `v` that passes only through vertices of `p`. -/
def JoinedThrough (R : α → α → Prop) (p : List α) (u v : α) : Prop :=
  ∃ l, (∀ z ∈ l, z ∈ p) ∧ (u :: (l ++ [v])).IsChain R

section
variable {p : List α}

theorem JoinedThrough.cons {u x v : α} (hux : R u x) (hx : x ∈ p) (h : JoinedThrough R p x v) :
    JoinedThrough R p u v := by
  obtain ⟨l, hl, hchain⟩ := h
  exact ⟨x :: l, forall_mem_cons.2 ⟨hx, hl⟩, isChain_cons_cons.2 ⟨hux, hchain⟩⟩

theorem joinedThrough_of_rel {u v : α} (h : R u v) : JoinedThrough R p u v :=
  ⟨[], fun _ hz => absurd hz not_mem_nil, isChain_cons_cons.2 ⟨h, isChain_singleton v⟩⟩

theorem joinedThrough_of_eliminate {u v : α} (h : JoinedThrough (eliminate R w) p u v) :
    u ≠ w ∧ v ≠ w ∧ JoinedThrough R (w :: p) u v := by
  obtain ⟨l, hl, hchain⟩ := h
  induction l generalizing u with
  | nil =>
    obtain ⟨⟨hu, hv, huv | ⟨huw, hwv⟩⟩, -⟩ := isChain_cons_cons.1 hchain
    · exact ⟨hu, hv, joinedThrough_of_rel huv⟩
    · exact ⟨hu, hv, (joinedThrough_of_rel hwv).cons huw mem_cons_self⟩
  | cons x l ih =>
    obtain ⟨hx, hl⟩ := forall_mem_cons.1 hl
    obtain ⟨⟨hu, hxw, hux⟩, hrest⟩ := isChain_cons_cons.1 hchain
    obtain ⟨-, hv, hpath⟩ := ih hl hrest
    have hx' : x ∈ w :: p := mem_cons_of_mem _ hx
    rcases hux with hux | ⟨huw, hwx⟩
    · exact ⟨hu, hv, hpath.cons hux hx'⟩
    · exact ⟨hu, hv, (hpath.cons hwx hx').cons huw mem_cons_self⟩

theorem eliminate_joinedThrough {u v : α} (hv : v ≠ w) (h : JoinedThrough R (w :: p) u v) :
    (u ≠ w → JoinedThrough (eliminate R w) p u v) ∧
      (u = w → ∀ x, x ≠ w → R x w → JoinedThrough (eliminate R w) p x v) := by
  obtain ⟨l, hl, hchain⟩ := h
  induction l generalizing u with
  | nil =>
    obtain ⟨huv, -⟩ := isChain_cons_cons.1 hchain
    refine ⟨fun hu => joinedThrough_of_rel ⟨hu, hv, .inl huv⟩, ?_⟩
    rintro rfl x hx hxu
    exact joinedThrough_of_rel ⟨hx, hv, .inr ⟨hxu, huv⟩⟩
  | cons z l ih =>
    obtain ⟨hz, hl⟩ := forall_mem_cons.1 hl
    obtain ⟨huz, hrest⟩ := isChain_cons_cons.1 hchain
    obtain ⟨hother, hsame⟩ := ih hl hrest
    by_cases hzw : z = w
    · rw [hzw] at huz
      exact ⟨fun hu => hsame hzw u hu huz, fun _ x hx hxw => hsame hzw x hx hxw⟩
    · have hzp : z ∈ p := (mem_cons.1 hz).resolve_left hzw
      refine ⟨fun hu => (hother hzw).cons ⟨hu, hzw, .inl huz⟩ hzp, ?_⟩
      rintro rfl x hx hxu
      exact (hother hzw).cons ⟨hx, hzw, .inr ⟨hxu, huz⟩⟩ hzp

theorem eliminateAll_iff {u v : α} : eliminateAll R p u v ↔ u ∉ p ∧ v ∉ p ∧ JoinedThrough R p u v := by
  induction p generalizing R with
  | nil =>
    constructor
    · intro h
      exact ⟨not_mem_nil, not_mem_nil, joinedThrough_of_rel h⟩
    · intro hp
      obtain ⟨-, -, l, hl, hchain⟩ := hp
      rw [eq_nil_iff_forall_not_mem.2 fun z hz => absurd (hl z hz) not_mem_nil] at hchain
      exact (isChain_cons_cons.1 hchain).1
  | cons w p ih =>
    change eliminateAll (eliminate R w) p u v ↔ _
    rw [ih, mem_cons, mem_cons, not_or, not_or]
    constructor
    · intro hp
      obtain ⟨hu, hv, h⟩ := hp
      obtain ⟨huw, hvw, hpath⟩ := joinedThrough_of_eliminate h
      exact ⟨⟨huw, hu⟩, ⟨hvw, hv⟩, hpath⟩
    · intro hp
      obtain ⟨⟨huw, hu⟩, ⟨hvw, hv⟩, h⟩ := hp
      exact ⟨hu, hv, (eliminate_joinedThrough hvw h).1 huw⟩

end

section
variable {R' : α → α → Prop} (hle : ∀ u v, R u v → R' u v)
include hle

theorem eliminate_mono {u v : α} (h : eliminate R w u v) :
    eliminate R' w u v := ⟨h.1, h.2.1, h.2.2.imp (hle u v) fun huv => ⟨hle u w huv.1, hle w v huv.2⟩⟩

theorem eliminateAll_mono (p : List α) {u v : α} (h : eliminateAll R p u v) : eliminateAll R' p u v := by
  induction p generalizing R R' with
  | nil => exact hle u v h
  | cons w p ih => exact ih (fun u v => eliminate_mono hle) h

end

/-! ## Bypasses -/

/-- A path from `u` to `v` through vertices that are eliminated before both. -/
def Bypassed (R : α → α → Prop) (p : List α) (u v : α) : Prop :=
  ∃ q, q <+: p ∧ u ∉ q ∧ v ∉ q ∧ JoinedThrough R q u v

theorem bypassed_iff {p : List α} {u v : α} : Bypassed R p u v ↔ ∃ q, q <+: p ∧ eliminateAll R q u v := by
  unfold Bypassed
  simp only [eliminateAll_iff]

theorem bypassed_of_rel {p : List α} {u v : α} (h : R u v) : Bypassed R p u v :=
  bypassed_iff.2 ⟨[], nil_prefix, h⟩

theorem bypassed_nil {u v : α} : Bypassed R [] u v ↔ R u v := by
  refine ⟨?_, bypassed_of_rel⟩
  intro h
  obtain ⟨q, hq, hR⟩ := bypassed_iff.1 h
  rw [prefix_nil.1 hq] at hR
  exact hR

theorem bypassed_cons {p : List α} {u v : α} : Bypassed R (w :: p) u v ↔ R u v ∨ Bypassed (eliminate R w) p u v := by
  rw [bypassed_iff, bypassed_iff]
  constructor
  · intro h
    obtain ⟨q, hq, hR⟩ := h
    cases q with
    | nil => exact .inl hR
    | cons x q =>
      obtain ⟨hx, hqp⟩ := cons_prefix_cons.1 hq
      rw [hx] at hR
      exact .inr ⟨q, hqp, hR⟩
  · rintro (hR | ⟨q, hq, hR⟩)
    · exact ⟨[], nil_prefix, hR⟩
    · exact ⟨w :: q, cons_prefix_cons.2 ⟨rfl, hq⟩, hR⟩

theorem rel_of_bypassed {p : List α} {u v : α} (huv : u = w ∨ v = w) (h : Bypassed R (w :: p) u v) : R u v := by
  apply (bypassed_cons.1 h).resolve_right
  intro hp
  obtain ⟨q, -, -, -, hpath⟩ := hp
  obtain ⟨hu, hv, -⟩ := joinedThrough_of_eliminate hpath
  exact huv.elim hu hv

theorem Bypassed.mono {R' : α → α → Prop} (hle : ∀ u v, R u v → R' u v) {p : List α} {u v : α} (h : Bypassed R p u v) :
    Bypassed R' p u v := by
  obtain ⟨q, hq, hR⟩ := bypassed_iff.1 h
  exact bypassed_iff.2 ⟨q, hq, eliminateAll_mono hle q hR⟩

end Elimination
