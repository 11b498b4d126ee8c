import Mathlib.Combinatorics.SimpleGraph.Metric
import Mathlib.Combinatorics.SimpleGraph.Acyclic
import Mathlib.Data.List.Chain
import Mathlib.Data.Nat.Find
import Mathlib.Data.Set.Insert

/-!
# Distances from a root

In a connected finite part of a graph every distance from a root is less than the number of vertices, and every other
vertex has a neighbour that is one step closer.

* `exists_closer` : the neighbour.
-/

namespace Distances
open SimpleGraph

variable {α : Type*} {G : SimpleGraph α} {S : Finset α} {s : α}

theorem support_subset (hmem : ∀ u v, G.Adj u v → u ∈ S ∧ v ∈ S) {u v : α} (hu : u ∈ S) (p : G.Walk u v) :
    ∀ w ∈ p.support, w ∈ S := by
  induction p with
  | nil =>
    intro w hw
    rw [Walk.support_nil, List.mem_singleton] at hw
    rwa [hw]
  | cons h p ih =>
    intro w hw
    rw [Walk.support_cons, List.mem_cons] at hw
    rcases hw with rfl | hw
    · exact hu
    · exact ih (hmem _ _ h).2 w hw

theorem dist_lt_card (hs : s ∈ S) (hmem : ∀ u v, G.Adj u v → u ∈ S ∧ v ∈ S) {v : α} (hv : G.Reachable s v) :
    G.dist s v < S.card := by
  classical
  obtain ⟨p, hp, hlen⟩ := hv.exists_path_of_dist
  have hcard : p.support.toFinset.card ≤ S.card := by
    apply Finset.card_le_card
    intro w hw
    exact support_subset hmem hs p w (List.mem_toFinset.1 hw)
  rw [List.toFinset_card_of_nodup hp.support_nodup, Walk.length_support] at hcard
  omega

theorem exists_closer {v : α} (hv : G.Reachable s v) (hne : v ≠ s) : ∃ u, G.Adj u v ∧ G.dist s v = G.dist s u + 1 := by
  obtain ⟨p, hlen⟩ := hv.symm.exists_walk_length_eq_dist
  cases p with
  | nil => exact absurd rfl hne
  | @cons _ u _ h p =>
    rw [Walk.length_cons, dist_comm] at hlen
    refine ⟨u, h.symm, ?_⟩
    have hle : G.dist s u ≤ p.length := by
      rw [dist_comm]
      exact dist_le p
    obtain ⟨q, hq⟩ := (hv.trans h.reachable).exists_walk_length_eq_dist
    have hge := dist_le (q.concat h.symm)
    rw [Walk.length_concat] at hge
    omega

end Distances

/-! # Forests by the times at which vertices become leaves -/

namespace Forests
open SimpleGraph List

variable {α : Type*} {G : SimpleGraph α}

/-- The time is 0 at leaves, and of two neighbours of a vertex one has an earlier time. -/
structure LeafTimes (G : SimpleGraph α) (t : α → ℕ) : Prop where
  leaf : ∀ v, (∀ a b, G.Adj v a → G.Adj v b → a = b) → t v = 0
  earlier : ∀ v a b, a ≠ b → G.Adj v a → G.Adj v b → t a < t v ∨ t b < t v

theorem isAcyclic_of_earlier {t : α → ℕ}
    (h : ∀ v a b, a ≠ b → G.Adj v a → G.Adj v b → t a < t v ∨ t b < t v) : G.IsAcyclic := by
  classical
  intro u c hc
  have hne : (c.support.toFinset).Nonempty := ⟨u, mem_toFinset.2 c.start_mem_support⟩
  obtain ⟨v, hv, hmin⟩ := Finset.exists_min_image c.support.toFinset t hne
  have hvc : v ∈ c.support := mem_toFinset.1 hv
  have hc' : (c.rotate v hvc).IsCycle := hc.rotate hvc
  have hmem : ∀ w ∈ (c.rotate v hvc).support, t v ≤ t w := by
    intro w hw
    refine hmin w (mem_toFinset.2 ?_)
    exact (Walk.mem_support_rotate_iff c v hvc).1 hw
  have hnil : ¬ (c.rotate v hvc).Nil := hc'.not_nil
  rcases h v _ _ hc'.snd_ne_penultimate (Walk.adj_snd hnil) (Walk.adj_penultimate hnil).symm with hlt | hlt
  · exact absurd hlt (Nat.not_lt.2 (hmem _ (Walk.getVert_mem_support _ _)))
  · exact absurd hlt (Nat.not_lt.2 (hmem _ (Walk.getVert_mem_support _ _)))

/-! ## Arms -/

/-- A walk of length `k` that starts with the edge from `u` to `v` and never turns back. -/
def Arm (G : SimpleGraph α) : ℕ → α → α → Prop
  | 0, _, _ => True
  | 1, u, v => G.Adj u v
  | k + 2, u, v => G.Adj u v ∧ ∃ w, w ≠ u ∧ Arm G (k + 1) v w

theorem Arm.adj {k : ℕ} {u v : α} (h : Arm G (k + 1) u v) : G.Adj u v := by
  cases k with
  | zero => exact h
  | succ k => exact h.1

theorem Arm.mono {k : ℕ} {u v : α} (h : Arm G (k + 2) u v) : Arm G (k + 1) u v := by
  induction k generalizing u v with
  | zero => exact h.1
  | succ k ih =>
    obtain ⟨huv, w, hw, harm⟩ := h
    exact ⟨huv, w, hw, ih harm⟩

theorem Arm.le {j k : ℕ} {u v : α} (h : Arm G (k + 1) u v) (hjk : j ≤ k) : Arm G (j + 1) u v := by
  induction k, hjk using Nat.le_induction with
  | base => exact h
  | succ k _ ih => exact ih h.mono

theorem Arm.exists_walk {k : ℕ} {u v : α} (h : Arm G (k + 1) u v) :
    ∃ (x : α) (p : G.Walk u x), p.length = k + 1 ∧ p.edges.IsChain (· ≠ ·) ∧ p.edges.head? = some s(u, v) := by
  induction k generalizing u v with
  | zero =>
    have huv : G.Adj u v := h
    exact ⟨v, Walk.cons huv Walk.nil, rfl, isChain_singleton _, rfl⟩
  | succ k ih =>
    obtain ⟨huv, w, hw, harm⟩ := h
    obtain ⟨x, p, hlen, hchain, hfirst⟩ := ih harm
    refine ⟨x, Walk.cons huv p, ?_, ?_, ?_⟩
    · rw [Walk.length_cons, hlen]
    · rw [Walk.edges_cons, isChain_cons]
      refine ⟨?_, hchain⟩
      intro e he
      rw [hfirst, Option.mem_some_iff] at he
      rw [← he, Ne, Sym2.eq_iff]
      rintro (⟨hv, hw'⟩ | ⟨hv, -⟩)
      · exact huv.ne hv
      · exact hw hv.symm
    · rw [Walk.edges_cons, List.head?_cons]

/-- Two arms of length `k` at `v`. -/
def Centred (G : SimpleGraph α) (k : ℕ) (v : α) : Prop := ∃ a b, a ≠ b ∧ Arm G k v a ∧ Arm G k v b

theorem Centred.card_le (hG : G.IsAcyclic) {S : Finset α} (hS : ∀ u v, G.Adj u v → u ∈ S ∧ v ∈ S) {k : ℕ} {v : α}
    (h : Centred G (k + 1) v) : 2 * (k + 1) + 1 ≤ S.card := by
  classical
  obtain ⟨a, b, hab, ha, hb⟩ := h
  obtain ⟨x, p, hp, hpchain, hpfirst⟩ := ha.exists_walk
  obtain ⟨y, q, hq, hqchain, hqfirst⟩ := hb.exists_walk
  have hpath : (p.reverse.append q).IsPath := by
    rw [hG.isPath_iff_isChain, Walk.edges_append, Walk.edges_reverse, isChain_append]
    refine ⟨?_, hqchain, ?_⟩
    · rw [isChain_reverse]
      exact hpchain.imp fun _ _ hne => Ne.symm hne
    · intro e he f hf
      rw [List.getLast?_reverse, hpfirst, Option.mem_some_iff] at he
      rw [hqfirst, Option.mem_some_iff] at hf
      rw [← he, ← hf]
      exact fun heq => hab (Sym2.congr_right.1 heq)
  have hlen : (p.reverse.append q).support.length = 2 * (k + 1) + 1 := by
    rw [Walk.length_support, Walk.length_append, Walk.length_reverse, hp, hq]
    omega
  rw [← hlen, ← toFinset_card_of_nodup hpath.support_nodup]
  apply Finset.card_le_card
  intro w hw
  have hv : v ∈ S := (hS v a ha.adj).1
  rcases (Walk.mem_support_append_iff _ _).1 (mem_toFinset.1 hw) with hmem | hmem
  · rw [Walk.support_reverse, mem_reverse] at hmem
    exact Distances.support_subset hS hv p w hmem
  · exact Distances.support_subset hS hv q w hmem

/-! ## Times -/

open Classical in
/-- The greatest length, up to `m`, of two arms at `v`. -/
noncomputable def armTime (G : SimpleGraph α) (m : ℕ) (v : α) : ℕ := Nat.findGreatest (fun k => Centred G k v) m

theorem armTime_le (m : ℕ) (v : α) : armTime G m v ≤ m := by
  classical
  exact Nat.findGreatest_le m

theorem centred_armTime {m k : ℕ} {v : α} (h : armTime G m v = k + 1) : Centred G (k + 1) v := by
  classical
  exact Nat.findGreatest_of_ne_zero h k.succ_ne_zero

theorem arm_of_not_earlier {m : ℕ} {v a : α} (hva : G.Adj v a) (h : ¬ armTime G m a < armTime G m v) :
    Arm G (armTime G m v + 1) v a := by
  cases hk : armTime G m v with
  | zero => exact hva
  | succ k =>
    cases hj : armTime G m a with
    | zero => omega
    | succ j =>
      have hjk : k ≤ j := by omega
      obtain ⟨c, d, hcd, hc, hd⟩ := centred_armTime hj
      by_cases hcv : c = v
      · exact ⟨hva, d, fun hdv => hcd (hcv.trans hdv.symm), hd.le hjk⟩
      · exact ⟨hva, c, hcv, hc.le hjk⟩

theorem le_armTime {m k : ℕ} {v : α} (hk : k ≤ m) (h : Centred G k v) : k ≤ armTime G m v := by
  classical
  exact Nat.le_findGreatest hk h

theorem leafTimes_armTime (hG : G.IsAcyclic) {S : Finset α} (hS : ∀ u v, G.Adj u v → u ∈ S ∧ v ∈ S) :
    LeafTimes G (armTime G ((S.card - 1) / 2)) := by
  refine ⟨?_, ?_⟩
  · intro v hone
    cases hk : armTime G ((S.card - 1) / 2) v with
    | zero => rfl
    | succ k =>
      obtain ⟨a, b, hab, ha, hb⟩ := centred_armTime hk
      exact absurd (hone a b ha.adj hb.adj) hab
  · intro v a b hab ha hb
    by_contra hno
    rw [not_or] at hno
    -- both arms can be prolonged
    have hlonger : Centred G (armTime G ((S.card - 1) / 2) v + 1) v :=
      ⟨a, b, hab, arm_of_not_earlier ha hno.1, arm_of_not_earlier hb hno.2⟩
    have hcard := hlonger.card_le hG hS
    have hle : armTime G ((S.card - 1) / 2) v + 1 ≤ armTime G ((S.card - 1) / 2) v :=
      le_armTime (by omega) hlonger
    omega

end Forests

/-! # Ranks that fall along the arcs of a directed graph -/

namespace PathRanks
open Relation List

variable {α : Type*} {R : α → α → Prop} {stop : Set α}

def Path (R : α → α → Prop) (stop : Set α) : ℕ → α → Prop
  | 0, _ => True
  | k + 1, v => v ∉ stop ∧ ∃ u, R v u ∧ Path R stop k u

theorem Path.mono {R' : α → α → Prop} (hle : ∀ u v, R u v → R' u v) {k : ℕ} {v : α} (h : Path R stop k v) :
    Path R' stop k v := by
  induction k generalizing v with
  | zero => trivial
  | succ k ih =>
    obtain ⟨hv, u, hvu, hpath⟩ := h
    exact ⟨hv, u, hle v u hvu, ih hpath⟩

/-- The rank falls along every arc that does not leave `stop`. -/
def Falls (R : α → α → Prop) (stop : Set α) (t : α → ℕ) : Prop := ∀ v u, v ∉ stop → R v u → t u < t v

theorem Falls.le_of_path {t : α → ℕ} (ht : Falls R stop t) {k : ℕ} {v : α} (h : Path R stop k v) : k ≤ t v := by
  induction k generalizing v with
  | zero => exact Nat.zero_le _
  | succ k ih =>
    obtain ⟨hv, u, hvu, hpath⟩ := h
    exact Nat.lt_of_le_of_lt (ih hpath) (ht v u hv hvu)

/-! ## The length of a longest path -/

open Classical in
noncomputable def rank (R : α → α → Prop) (stop : Set α) (m : ℕ) (v : α) : ℕ :=
  Nat.findGreatest (fun k => Path R stop k v) m

theorem rank_le (m : ℕ) (v : α) : rank R stop m v ≤ m := by
  classical
  exact Nat.findGreatest_le m

theorem path_rank (m : ℕ) (v : α) : Path R stop (rank R stop m v) v := by
  classical
  cases hk : rank R stop m v with
  | zero => trivial
  | succ k => exact Nat.findGreatest_of_ne_zero hk k.succ_ne_zero

theorem rank_eq_zero {m : ℕ} {v : α} (h : v ∈ stop ∨ ∀ u, ¬ R v u) : rank R stop m v = 0 := by
  cases hk : rank R stop m v with
  | zero => rfl
  | succ k =>
    have hpath := @path_rank _ R stop m v
    rw [hk] at hpath
    obtain ⟨hv, u, hvu, -⟩ := hpath
    rcases h with hstop | hnone
    · exact absurd hstop hv
    · exact absurd hvu (hnone u)

theorem le_rank {m k : ℕ} {v : α} (hk : k ≤ m) (h : Path R stop k v) : k ≤ rank R stop m v := by
  classical
  exact Nat.le_findGreatest hk h

theorem falls_rank {m : ℕ} (hno : ∀ v, ¬ Path R stop (m + 1) v) : Falls R stop (rank R stop m) := by
  intro v u hv hvu
  have hlonger : Path R stop (rank R stop m u + 1) v := ⟨hv, u, hvu, path_rank m u⟩
  have hle := @rank_le _ R stop m u
  by_cases hm : rank R stop m u = m
  · rw [hm] at hlonger
    exact absurd hlonger (hno v)
  · exact le_rank (by omega) hlonger

theorem path_of_cycle (hstop : ∀ v ∈ stop, ¬ TransGen R v v) {v : α} (hv : TransGen R v v) (k : ℕ) :
    Path R stop k v := by
  induction k generalizing v with
  | zero => trivial
  | succ k ih =>
    obtain ⟨u, hvu, huv⟩ := TransGen.head'_iff.1 hv
    exact ⟨fun hmem => hstop v hmem hv, u, hvu, ih (TransGen.tail' huv hvu)⟩

theorem acyclic_of_no_path (hstop : ∀ v ∈ stop, ¬ TransGen R v v) {m : ℕ} (hno : ∀ v, TransGen R v v → ¬ Path R stop m v)
    (v : α) : ¬ TransGen R v v :=
  fun hv => hno v hv (path_of_cycle hstop hv m)

/-! ## Lists of vertices -/

section
variable {l : List α} {r v : α} {k : ℕ}

theorem path_of_isChain (hstop : ∀ x ∈ l, x ∉ stop) (h : (l ++ [r]).IsChain R) (hv : (l ++ [r]).head? = some v) :
    Path R stop l.length v := by
  induction l generalizing v with
  | nil => trivial
  | cons x l ih =>
    rw [cons_append, List.head?_cons] at hv
    rw [← Option.some.inj hv]
    rw [cons_append, isChain_cons] at h
    obtain ⟨y, hy⟩ : ∃ y, (l ++ [r]).head? = some y := by
      cases l with
      | nil => exact ⟨r, rfl⟩
      | cons y l => exact ⟨y, rfl⟩
    exact ⟨hstop x mem_cons_self, y, h.1 y hy, ih (fun z hz => hstop z (mem_cons_of_mem x hz)) h.2 hy⟩

theorem exists_isChain_of_path (h : Path R stop k v) : ∃ l r, l.length = k ∧ (l ++ [r]).head? = some v ∧
    (∀ x ∈ l, x ∉ stop) ∧ (l ++ [r]).IsChain R := by
  induction k generalizing v with
  | zero => exact ⟨[], v, rfl, rfl, fun x hx => absurd hx not_mem_nil, isChain_singleton v⟩
  | succ k ih =>
    obtain ⟨hv, u, hvu, hpath⟩ := h
    obtain ⟨l, r, hlen, hu, hstop, hchain⟩ := ih hpath
    refine ⟨v :: l, r, congrArg Nat.succ hlen, rfl, ?_, ?_⟩
    · intro x hx
      rcases mem_cons.1 hx with rfl | hx
      · exact hv
      · exact hstop x hx
    · rw [cons_append, isChain_cons]
      refine ⟨fun y hy => ?_, hchain⟩
      rw [Option.mem_def, hu] at hy
      rw [← Option.some.inj hy]
      exact hvu

theorem forall_of_isChain {P : α → Prop} (hR : ∀ u w, R u w → P w) (h : l.IsChain R) (hhead : l.head? = some v)
    (hv : P v) : ∀ x ∈ l, P x := by
  induction l generalizing v with
  | nil => exact fun x hx => absurd hx not_mem_nil
  | cons y l ih =>
    rw [List.head?_cons] at hhead
    rw [isChain_cons] at h
    intro x hx
    rcases mem_cons.1 hx with rfl | hx
    · rw [Option.some.inj hhead]
      exact hv
    · cases l with
      | nil => exact absurd hx not_mem_nil
      | cons z l => exact ih h.2 rfl (hR y z (h.1 z rfl)) x hx

theorem nodup_of_isChain (hacyclic : ∀ v, ¬ TransGen R v v) (h : l.IsChain R) : l.Nodup := by
  have htrans : l.IsChain (TransGen R) := h.imp fun _ _ huv => TransGen.single huv
  apply (isChain_iff_pairwise.1 htrans).imp
  rintro a b hab rfl
  exact hacyclic a hab

end

end PathRanks
