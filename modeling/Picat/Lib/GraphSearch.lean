import Mathlib.Data.Finset.Card
import Mathlib.Algebra.BigOperators.Group.List.Basic
import Mathlib.Algebra.Order.Monoid.Defs
import Mathlib.Data.List.Nodup

/-!
# Searching a graph with marks and a queue

A vertex is marked when it is first met and put on a queue at that moment; a round takes one off the queue and visits
its successors.

* `Searching.marks_iff` : with an empty queue the marks are what is reachable.
-/

namespace GraphSearch

open Relation Finset

variable {α : Type*} [DecidableEq α]

/-- The marked vertices, and those of them whose successors have not been visited. -/
structure Frontier (α : Type*) where
  marks : Finset α
  queue : List α

def Frontier.visit (f : Frontier α) (b : α) : Frontier α :=
  if b ∈ f.marks then f else ⟨insert b f.marks, f.queue ++ [b]⟩

/-- `f` comes from `f₀` by visiting the vertices of `seen`: the new ones among them are at the end of the queue. -/
structure Visited (f₀ : Frontier α) (seen : Finset α) (f : Frontier α) : Prop where
  marks_eq : f.marks = f₀.marks ∪ seen
  queue_eq : ∃ new : List α, f.queue = f₀.queue ++ new ∧ new.Nodup ∧ ∀ b, b ∈ new ↔ b ∈ f.marks ∧ b ∉ f₀.marks

/-- The search has marked vertices that are reachable only, and has visited the successors of those that are not on the
queue. -/
structure Searching (E : α → α → Prop) (root : α) (f : Frontier α) : Prop where
  root_mem : root ∈ f.marks
  reach : ∀ a ∈ f.marks, ReflTransGen E root a
  queue_sub : ∀ a ∈ f.queue, a ∈ f.marks
  closed : ∀ a ∈ f.marks, a ∉ f.queue → ∀ b, E a b → b ∈ f.marks

section
variable {E : α → α → Prop} {root a b : α} {f f₀ : Frontier α} {seen U : Finset α} {q : List α}

theorem Visited.refl (f : Frontier α) : Visited f ∅ f where
  marks_eq := (union_empty _).symm
  queue_eq := ⟨[], (List.append_nil _).symm, List.nodup_nil, by simp⟩

theorem Visited.visit (h : Visited f₀ seen f) (b : α) : Visited f₀ (insert b seen) (f.visit b) := by
  unfold Frontier.visit
  split
  · next hb =>
      have hmarks : f.marks = f₀.marks ∪ insert b seen := by
        rw [union_insert, ← h.marks_eq, insert_eq_of_mem hb]
      exact ⟨hmarks, h.queue_eq⟩
  · next hb =>
      obtain ⟨new, hqueue, hnew, hmem⟩ := h.queue_eq
      have hb₀ : b ∉ f₀.marks := fun hb₀ => hb (h.marks_eq ▸ mem_union_left _ hb₀)
      have hbnew : b ∉ new := fun hin => hb ((hmem b).1 hin).1
      refine ⟨?_, new ++ [b], ?_, ?_, fun c => ?_⟩
      · rw [union_insert, ← h.marks_eq]
      · simp only [hqueue, List.append_assoc]
      · rw [List.nodup_append_comm, List.singleton_append]
        exact List.nodup_cons.2 ⟨hbnew, hnew⟩
      · simp only [List.mem_append, hmem, List.mem_singleton, mem_insert]
        constructor
        · rintro (⟨hc, hc₀⟩ | rfl)
          · exact ⟨.inr hc, hc₀⟩
          · exact ⟨.inl rfl, hb₀⟩
        · intro hp
          obtain ⟨rfl | hc, hc₀⟩ := hp
          · exact .inr rfl
          · exact .inl ⟨hc, hc₀⟩

theorem Visited.rest (h : Visited f₀ seen f) (hU : f.marks ⊆ U) :
    U.card - f.marks.card + f.queue.length = U.card - f₀.marks.card + f₀.queue.length := by
  obtain ⟨new, hqueue, hnew, hmem⟩ := h.queue_eq
  have hsub : f₀.marks ⊆ f.marks := by
    rw [h.marks_eq]
    exact subset_union_left
  have hdiff : new.toFinset = f.marks \ f₀.marks := by
    ext b
    rw [List.mem_toFinset, hmem, mem_sdiff]
  have hcard : new.length = f.marks.card - f₀.marks.card := by
    rw [← List.toFinset_card_of_nodup hnew, hdiff, card_sdiff_of_subset hsub]
  have hle := card_le_card hU
  have hle₀ := card_le_card hsub
  rw [hqueue, List.length_append, hcard]
  omega

omit [DecidableEq α] in
theorem Searching.start (E : α → α → Prop) (root : α) : Searching E root ⟨{root}, [root]⟩ where
  root_mem := mem_singleton_self _
  reach := by
    intro a ha
    rw [mem_singleton.1 ha]
  queue_sub := fun a ha => mem_singleton.2 (List.mem_singleton.1 ha)
  closed := fun a ha hnot => absurd (List.mem_singleton.2 (mem_singleton.1 ha)) hnot

section
variable (h : Searching E root ⟨f₀.marks, a :: f₀.queue⟩) (hv : Visited f₀ seen f)
include h hv

theorem Searching.reach_of_visited (hseen : ∀ b ∈ seen, E a b) : ∀ b ∈ f.marks, ReflTransGen E root b := by
  intro b hb
  rw [hv.marks_eq, mem_union] at hb
  rcases hb with hb | hb
  · exact h.reach b hb
  · exact (h.reach a (h.queue_sub a List.mem_cons_self)).tail (hseen b hb)

theorem Searching.round (hseen : ∀ b, b ∈ seen ↔ E a b) : Searching E root f := by
  obtain ⟨new, hqueue, -, hmem⟩ := hv.queue_eq
  have hsub : ∀ b ∈ f₀.marks, b ∈ f.marks := fun b hb => hv.marks_eq ▸ mem_union_left _ hb
  refine ⟨hsub root h.root_mem, h.reach_of_visited hv fun b hb => (hseen b).1 hb, fun b hb => ?_, fun b hb hnot c hc => ?_⟩
  · rw [hqueue] at hb
    rcases List.mem_append.1 hb with hb | hb
    · exact hsub b (h.queue_sub b (List.mem_cons_of_mem _ hb))
    · exact ((hmem b).1 hb).1
  · rw [hqueue, List.mem_append, not_or] at hnot
    have hb₀ : b ∈ f₀.marks := by
      by_contra hnew
      exact hnot.2 ((hmem b).2 ⟨hb, hnew⟩)
    by_cases hba : b = a
    · subst hba
      rw [hv.marks_eq]
      exact mem_union_right _ ((hseen c).2 hc)
    · have hout : b ∉ a :: f₀.queue := by simp [hba, hnot.1]
      exact hsub c (h.closed b hb₀ hout c hc)

end

omit [DecidableEq α] in
theorem Searching.marks_iff (h : Searching E root f) (hq : f.queue = []) : a ∈ f.marks ↔ ReflTransGen E root a := by
  refine ⟨h.reach a, fun hr => ?_⟩
  induction hr with
  | refl => exact h.root_mem
  | tail _ hbc ih => exact h.closed _ ih (by simp [hq]) _ hbc

end

end GraphSearch

/-! # Walks as lists of edges -/

/-- The edges of a graph on `V`. -/
structure WGraph (V E W : Type*) where
  mem : E → Prop
  src : E → V
  tgt : E → V
  wt : E → W

namespace WGraph

open List

variable {V E W : Type*} {G : WGraph V E W} {u v t : V} {e : E} {p q : List E}

/-- `p` goes from `u` to `v`. -/
def IsWalk (G : WGraph V E W) (v : V) : V → List E → Prop
  | u, [] => u = v
  | u, e :: p => G.mem e ∧ G.src e = u ∧ G.IsWalk v (G.tgt e) p

def verts (G : WGraph V E W) (u : V) (p : List E) : List V := u :: p.map G.tgt

structure IsSimple (G : WGraph V E W) (v u : V) (p : List E) : Prop where
  walk : G.IsWalk v u p
  nodup : (G.verts u p).Nodup

def weight [AddMonoid W] (G : WGraph V E W) (p : List E) : W := (p.map G.wt).sum

@[simp] theorem verts_nil : G.verts u [] = [u] := rfl

@[simp] theorem verts_cons : G.verts u (e :: p) = u :: G.verts (G.tgt e) p := rfl

@[simp] theorem weight_cons [AddMonoid W] : G.weight (e :: p) = G.wt e + G.weight p := by
  simp [weight]

theorem isSimple_nil : G.IsSimple v v [] := ⟨rfl, nodup_singleton v⟩

theorem isSimple_cons : G.IsSimple v u (e :: p) ↔
    G.mem e ∧ G.src e = u ∧ G.IsSimple v (G.tgt e) p ∧ u ∉ G.verts (G.tgt e) p := by
  constructor
  · intro h
    have hnodup := nodup_cons.1 h.nodup
    exact ⟨h.walk.1, h.walk.2.1, ⟨h.walk.2.2, hnodup.2⟩, hnodup.1⟩
  · rintro ⟨he, hu, hp, hnot⟩
    exact ⟨⟨he, hu, hp.walk⟩, nodup_cons.2 ⟨hnot, hp.nodup⟩⟩

theorem IsWalk.src_mem (h : G.IsWalk v u p) (he : e ∈ p) : G.src e ∈ G.verts u p := by
  induction p generalizing u with
  | nil => exact absurd he not_mem_nil
  | cons f p ih =>
    obtain ⟨-, hu, hp⟩ := h
    rw [verts_cons, mem_cons]
    rcases mem_cons.1 he with rfl | he
    · exact .inl hu
    · exact .inr (ih hp he)

theorem IsWalk.target_mem (h : G.IsWalk v u p) : v ∈ G.verts u p := by
  induction p generalizing u with
  | nil =>
    obtain rfl : u = v := h
    exact mem_singleton_self u
  | cons e p ih => exact mem_cons_of_mem _ (ih h.2.2)

theorem IsWalk.mem_edges (h : G.IsWalk v u p) (he : e ∈ p) : G.mem e := by
  induction p generalizing u with
  | nil => exact absurd he not_mem_nil
  | cons f p ih =>
    rcases mem_cons.1 he with rfl | he
    · exact h.1
    · exact ih h.2.2 he

theorem IsSimple.src_injOn (h : G.IsSimple v u p) {f : E} (he : e ∈ p) (hf : f ∈ p) (hsrc : G.src e = G.src f) :
    e = f := by
  induction p generalizing u with
  | nil => exact absurd he not_mem_nil
  | cons g p ih =>
    obtain ⟨-, hu, hp, hnot⟩ := isSimple_cons.1 h
    have hne : ∀ x ∈ p, G.src x ≠ G.src g := by
      intro x hx heq
      apply hnot
      rw [← hu, ← heq]
      exact hp.walk.src_mem hx
    rcases mem_cons.1 he with heg | hep
    · rcases mem_cons.1 hf with hfg | hfp
      · rw [heg, hfg]
      · rw [heg] at hsrc
        exact absurd hsrc.symm (hne f hfp)
    · rcases mem_cons.1 hf with hfg | hfp
      · rw [hfg] at hsrc
        exact absurd hsrc (hne e hep)
      · exact ih hp hep hfp

theorem IsSimple.nodup_edges (h : G.IsSimple v u p) : p.Nodup := by
  induction p generalizing u with
  | nil => exact nodup_nil
  | cons g p ih =>
    obtain ⟨-, hu, hp, hnot⟩ := isSimple_cons.1 h
    refine nodup_cons.2 ⟨fun hg => hnot ?_, ih hp⟩
    rw [← hu]
    exact hp.walk.src_mem hg

section
variable [AddCommMonoid W] [PartialOrder W] [IsOrderedAddMonoid W]

theorem IsSimple.exists_from (hpos : ∀ e, G.mem e → 0 ≤ G.wt e) (h : G.IsSimple v u p) (ht : t ∈ G.verts u p) :
    ∃ q, G.IsSimple v t q ∧ G.weight q ≤ G.weight p := by
  induction p generalizing u with
  | nil =>
    rw [verts_nil, mem_singleton] at ht
    subst ht
    exact ⟨[], h, le_refl _⟩
  | cons e p ih =>
    obtain ⟨he, -, hp, -⟩ := isSimple_cons.1 h
    rw [verts_cons, mem_cons] at ht
    rcases ht with rfl | ht
    · exact ⟨e :: p, h, le_refl _⟩
    · obtain ⟨q, hq, hle⟩ := ih hp ht
      refine ⟨q, hq, hle.trans ?_⟩
      rw [weight_cons]
      exact le_add_of_nonneg_left (hpos e he)

theorem IsWalk.exists_simple_le (hpos : ∀ e, G.mem e → 0 ≤ G.wt e) (h : G.IsWalk v u p) :
    ∃ q, G.IsSimple v u q ∧ G.weight q ≤ G.weight p := by
  induction p generalizing u with
  | nil =>
    obtain rfl : u = v := h
    exact ⟨[], isSimple_nil, le_refl _⟩
  | cons e p ih =>
    obtain ⟨he, hu, hp⟩ := h
    obtain ⟨q, hq, hle⟩ := ih hp
    rw [weight_cons]
    by_cases hin : u ∈ G.verts (G.tgt e) q
    · obtain ⟨r, hr, hle'⟩ := hq.exists_from hpos hin
      exact ⟨r, hr, (hle'.trans hle).trans (le_add_of_nonneg_left (hpos e he))⟩
    · refine ⟨e :: q, isSimple_cons.2 ⟨he, hu, hq, hin⟩, ?_⟩
      rw [weight_cons]
      gcongr

end

/-! ## Avoiding vertices -/

/-- There is a walk from `v` to `t` on which no vertex is one of `A`. -/
inductive Leads (G : WGraph V E W) (A : List V) (t : V) : V → Prop
  | refl (hA : t ∉ A) : Leads G A t t
  | step {e : E} (hA : G.src e ∉ A) (he : G.mem e) (h : Leads G A t (G.tgt e)) : Leads G A t (G.src e)

theorem Leads.notMem {A : List V} (h : G.Leads A t v) : v ∉ A := by
  cases h with
  | refl hA => exact hA
  | step hA he h => exact hA

theorem Leads.of_cons {A : List V} (h : G.Leads (u :: A) t v) : G.Leads A t v := by
  induction h with
  | refl hA => exact .refl fun hin => hA (mem_cons_of_mem _ hin)
  | step hA he h ih => exact .step (fun hin => hA (mem_cons_of_mem _ hin)) he ih

theorem leads_nil_iff : G.Leads [] t v ↔ ∃ p, G.IsWalk t v p := by
  constructor
  · intro h
    induction h with
    | refl hA => exact ⟨[], rfl⟩
    | @step e hA he h ih =>
      obtain ⟨p, hp⟩ := ih
      exact ⟨e :: p, he, rfl, hp⟩
  · rintro ⟨p, hp⟩
    induction p generalizing v with
    | nil =>
      obtain rfl : v = t := hp
      exact .refl not_mem_nil
    | cons e p ih =>
      obtain ⟨he, rfl, hp⟩ := hp
      exact .step not_mem_nil he (ih hp)

theorem leads_cons {A : List V} (hne : u ≠ t) (hsucc : ∀ e, G.mem e → G.src e = u → ¬ G.Leads (u :: A) t (G.tgt e))
    (h : G.Leads A t v) : G.Leads (u :: A) t v := by
  induction h with
  | refl hA => exact .refl (by simp [hA, Ne.symm hne])
  | @step e hA he h ih =>
    by_cases hu : G.src e = u
    · exact absurd ih (hsucc e he hu)
    · exact .step (by simp [hu, hA]) he ih

end WGraph
