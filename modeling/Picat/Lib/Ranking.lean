import Mathlib.Data.List.Sort

/-!
# The best few of a sequence

A sequence of values comes in one by one, and the `k` best ones are kept in a list, the best one first.

* `IsBest.keepBest` : one more value keeps it so.
-/

namespace Ranking

open List

variable {α : Type*} (better : α → α → Bool)

structure StrictWeakOn (s : Set α) : Prop where
  asymm : ∀ a ∈ s, ∀ b ∈ s, better a b = true → better b a = false
  better_or : ∀ a ∈ s, ∀ b ∈ s, ∀ c ∈ s, better a c = true → better a b = true ∨ better b c = true

variable {better} in
theorem StrictWeakOn.mono {s t : Set α} (h : StrictWeakOn better t) (hst : s ⊆ t) : StrictWeakOn better s :=
  ⟨fun a ha b hb => h.asymm a (hst ha) b (hst hb), fun a ha b hb c hc => h.better_or a (hst ha) b (hst hb) c (hst hc)⟩

variable [DecidableEq α]

def Before (seen : List α) (a b : α) : Prop :=
  better a b = true ∨ (better b a = false ∧ seen.idxOf a < seen.idxOf b)

/-- One more value for a list with room for `k`. -/
def keepBest (k : ℕ) (l : List α) (x : α) : List α :=
  if x ∈ l then l
  else if l.length = k then
    if l.getLast?.any (better x) then l.dropLast.orderedInsert (fun a b => better a b = true) x else l
  else l.orderedInsert (fun a b => better a b = true) x

/-- The list holds the `k` best values seen, in their order. -/
structure IsBest (k : ℕ) (seen l : List α) : Prop where
  seen_of_mem : ∀ a ∈ l, a ∈ seen
  nodup : l.Nodup
  sorted : l.Pairwise (Before better seen)
  length_le : l.length ≤ k
  best : ∀ d ∈ seen, d ∉ l → l.length = k ∧ ∀ a ∈ l, Before better seen a d

variable {better} {k : ℕ} {seen l : List α} {x a b : α}

theorem Before.not_worse (hr : StrictWeakOn better {y | y ∈ seen}) (ha : a ∈ seen) (hb : b ∈ seen)
    (h : Before better seen a b) : better b a = false := by
  rcases h with h | h
  · exact hr.asymm a ha b hb h
  · exact h.1

theorem Before.append (ha : a ∈ seen) (hb : b ∈ seen) (h : Before better seen a b) :
    Before better (seen ++ [x]) a b := by
  rw [Before, idxOf_append_of_mem ha, idxOf_append_of_mem hb]
  exact h

theorem before_new (ha : a ∈ seen) (hx : x ∉ seen) (h : better x a = false) : Before better (seen ++ [x]) a x := by
  refine .inr ⟨h, ?_⟩
  rw [idxOf_append_of_mem ha, idxOf_append_of_notMem hx]
  exact Nat.lt_add_right _ (idxOf_lt_length_iff.2 ha)

theorem pairwise_orderedInsert (hr : StrictWeakOn better {y | y ∈ seen ++ [x]}) (hl : ∀ a ∈ l, a ∈ seen)
    (hx : x ∉ seen) (hsorted : l.Pairwise (Before better seen)) :
    (l.orderedInsert (fun a b => better a b = true) x).Pairwise (Before better (seen ++ [x])) := by
  have hseen : ∀ a ∈ l, a ∈ seen ++ [x] := fun a ha => mem_append_left _ (hl a ha)
  have hxs : x ∈ seen ++ [x] := mem_append_right _ (mem_singleton_self x)
  induction l with
  | nil => exact pairwise_singleton _ x
  | cons a l ih =>
    rw [pairwise_cons] at hsorted
    rw [forall_mem_cons] at hl hseen
    rw [List.orderedInsert]
    split_ifs with hxa
    · refine pairwise_cons.2 ⟨forall_mem_cons.2 ⟨.inl hxa, fun z hz => .inl ?_⟩, ?_⟩
      · -- `x` is better than `a`, and `z` is not
        have hza := (hsorted.1 z hz).not_worse (hr.mono fun y hy => mem_append_left _ hy) hl.1 (hl.2 z hz)
        apply (hr.better_or x hxs z (hseen.2 z hz) a hseen.1 hxa).resolve_right
        rw [hza]
        exact Bool.false_ne_true
      · refine pairwise_cons.2 ⟨fun z hz => (hsorted.1 z hz).append hl.1 (hl.2 z hz), ?_⟩
        exact hsorted.2.imp_of_mem fun hy hz h => h.append (hl.2 _ hy) (hl.2 _ hz)
    · refine pairwise_cons.2 ⟨fun z hz => ?_, ih hl.2 hsorted.2 hseen.2⟩
      rcases (mem_orderedInsert _).1 hz with rfl | hz
      · exact before_new hl.1 hx (Bool.eq_false_iff.2 hxa)
      · exact (hsorted.1 z hz).append hl.1 (hl.2 z hz)

omit [DecidableEq α] in
theorem nodup_orderedInsert (hx : x ∉ l) (hl : l.Nodup) : (l.orderedInsert (fun a b => better a b = true) x).Nodup :=
  (perm_orderedInsert _ x l).nodup_iff.2 (nodup_cons.2 ⟨hx, hl⟩)

section Step

theorem IsBest.of_mem (h : IsBest better k seen l) (hx : x ∈ l) : IsBest better k (seen ++ [x]) l := by
  refine ⟨fun a ha => mem_append_left _ (h.seen_of_mem a ha), h.nodup, ?_, h.length_le, fun d hd hdl => ?_⟩
  · exact h.sorted.imp_of_mem fun ha hb hab => hab.append (h.seen_of_mem _ ha) (h.seen_of_mem _ hb)
  · rw [mem_append, mem_singleton] at hd
    have hds : d ∈ seen := hd.resolve_right fun heq => hdl (heq ▸ hx)
    obtain ⟨hlen, hbest⟩ := h.best d hds hdl
    exact ⟨hlen, fun a ha => (hbest a ha).append (h.seen_of_mem a ha) hds⟩

section
variable {z : α} (h : IsBest better k seen (l ++ [z])) (hr : StrictWeakOn better {y | y ∈ seen ++ [x]})
  (hfull : (l ++ [z]).length = k)
include h hr hfull

theorem IsBest.of_not_better (hxz : better x z = false) : IsBest better k (seen ++ [x]) (l ++ [z]) := by
  have hr' : StrictWeakOn better {y | y ∈ seen} := hr.mono fun y hy => mem_append_left _ hy
  have hz := h.seen_of_mem z (by simp)
  refine ⟨fun a ha => mem_append_left _ (h.seen_of_mem a ha), h.nodup, ?_, h.length_le, fun d hd hdl => ?_⟩
  · exact h.sorted.imp_of_mem fun ha hb hab => hab.append (h.seen_of_mem _ ha) (h.seen_of_mem _ hb)
  · refine ⟨hfull, fun a ha => ?_⟩
    by_cases hds : d ∈ seen
    · exact ((h.best d hds hdl).2 a ha).append (h.seen_of_mem a ha) hds
    · obtain rfl : d = x := by simpa [hds] using hd
      apply before_new (h.seen_of_mem a ha) hds
      rw [mem_append, mem_singleton] at ha
      rcases ha with ha | rfl
      · -- whatever is better than `a` is better than the last one, or the last one is better than `a`
        have hseen := h.seen_of_mem a (mem_append_left _ ha)
        have hza : better z a = false :=
          ((pairwise_append.1 h.sorted).2.2 a ha z (mem_singleton_self z)).not_worse hr' hseen hz
        by_contra hda
        rw [Bool.not_eq_false] at hda
        rcases hr.better_or d hd z (mem_append_left _ hz) a (mem_append_left _ hseen) hda with h' | h'
        · rw [hxz] at h'
          cases h'
        · rw [hza] at h'
          cases h'
      · exact hxz

theorem IsBest.of_better (hx : x ∉ l ++ [z]) (hxz : better x z = true) :
    IsBest better k (seen ++ [x]) (l.orderedInsert (fun a b => better a b = true) x) := by
  have hr' : StrictWeakOn better {y | y ∈ seen} := hr.mono fun y hy => mem_append_left _ hy
  have hz := h.seen_of_mem z (by simp)
  have hxs : x ∈ seen ++ [x] := mem_append_right _ (mem_singleton_self x)
  have hxseen : x ∉ seen := fun hmem => by
    have := ((h.best x hmem hx).2 z (by simp)).not_worse hr' hz hmem
    rw [hxz] at this
    cases this
  obtain ⟨hsorted, -, hlast⟩ := pairwise_append.1 h.sorted
  have hl : ∀ a ∈ l, a ∈ seen := fun a ha => h.seen_of_mem a (mem_append_left _ ha)
  rw [length_append, length_singleton] at hfull
  refine ⟨fun a ha => ?_, nodup_orderedInsert (fun hmem => hx (mem_append_left _ hmem))
    (nodup_append.1 h.nodup).1, pairwise_orderedInsert hr hl hxseen hsorted, ?_, fun d hd hdl => ?_⟩
  · rcases (mem_orderedInsert _).1 ha with rfl | ha
    · exact hxs
    · exact mem_append_left _ (hl a ha)
  · rw [orderedInsert_length]
    omega
  · rw [mem_orderedInsert, not_or] at hdl
    have hds : d ∈ seen := (mem_append.1 hd).resolve_right fun heq => hdl.1 (mem_singleton.1 heq)
    refine ⟨by rw [orderedInsert_length]; omega, fun a ha => ?_⟩
    by_cases hdz : d = z
    · subst d
      rcases (mem_orderedInsert _).1 ha with rfl | ha
      · exact .inl hxz
      · exact (hlast a ha z (mem_singleton_self z)).append (hl a ha) hz
    · have hbest := (h.best d hds (by simp [hdl.2, hdz])).2
      rcases (mem_orderedInsert _).1 ha with rfl | ha
      · have hdz' := (hbest z (by simp)).not_worse hr' hz hds
        refine .inl ((hr.better_or a hxs d (mem_append_left _ hds) z (mem_append_left _ hz) hxz).resolve_right ?_)
        rw [hdz']
        exact Bool.false_ne_true
      · exact (hbest a (mem_append_left _ ha)).append (hl a ha) hds

end

theorem IsBest.of_room (h : IsBest better k seen l) (hr : StrictWeakOn better {y | y ∈ seen ++ [x]})
    (hroom : l.length ≠ k) (hx : x ∉ l) :
    IsBest better k (seen ++ [x]) (l.orderedInsert (fun a b => better a b = true) x) := by
  have hall : ∀ d ∈ seen, d ∈ l := fun d hd => by
    by_contra hdl
    exact hroom (h.best d hd hdl).1
  refine ⟨fun a ha => ?_, nodup_orderedInsert hx h.nodup,
    pairwise_orderedInsert hr h.seen_of_mem (fun hmem => hx (hall x hmem)) h.sorted, ?_, fun d hd hdl => ?_⟩
  · rcases (mem_orderedInsert _).1 ha with rfl | ha
    · exact mem_append_right _ (mem_singleton_self a)
    · exact mem_append_left _ (h.seen_of_mem a ha)
  · rw [orderedInsert_length]
    exact Nat.lt_of_le_of_ne h.length_le hroom
  · rw [mem_orderedInsert, not_or] at hdl
    exact absurd (hall d ((mem_append.1 hd).resolve_right fun heq => hdl.1 (mem_singleton.1 heq))) hdl.2

end Step

theorem IsBest.keepBest (h : IsBest better k seen l) (hk : 0 < k)
    (hr : StrictWeakOn better {y | y ∈ seen ++ [x]}) : IsBest better k (seen ++ [x]) (keepBest better k l x) := by
  rw [Ranking.keepBest]
  split_ifs with hx hfull hlast
  · exact h.of_mem hx
  · obtain ⟨init, z, rfl⟩ := (eq_nil_or_concat l).resolve_left fun hnil => by simp [hnil] at hfull; omega
    rw [concat_eq_append] at *
    rw [List.getLast?_concat, Option.any_some] at hlast
    rw [dropLast_concat]
    exact h.of_better hr hfull hx hlast
  · obtain ⟨init, z, rfl⟩ := (eq_nil_or_concat l).resolve_left fun hnil => by simp [hnil] at hfull; omega
    rw [concat_eq_append] at *
    rw [List.getLast?_concat, Option.any_some, Bool.not_eq_true] at hlast
    exact h.of_not_better hr hfull hlast
  · exact h.of_room hr hfull hx

end Ranking
