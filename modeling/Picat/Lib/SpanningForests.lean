import Mathlib.LinearAlgebra.Dimension.StrongRankCondition

/-!
# Forests and spanning trees, as lists of edges

* `IsForest.sum_le` : edges that join, for each edge of a forest, its ends with no heavier edges have the least sum.
-/

namespace SpanningForests
open Relation List

variable {α : Type*} {e f : α × α} {Es Fs Gs : List (α × α)} {a b c v : α}

def Joined (Es : List (α × α)) : α → α → Prop := EqvGen fun a b => (a, b) ∈ Es

theorem joined_of_mem (he : e ∈ Es) : Joined Es e.1 e.2 := .rel _ _ he

theorem joined_refl : Joined Es a a := .refl a

theorem Joined.symm (h : Joined Es a b) : Joined Es b a := EqvGen.symm _ _ h

theorem Joined.trans (h : Joined Es a b) (h' : Joined Es b c) : Joined Es a c := EqvGen.trans _ _ _ h h'

theorem Joined.of_equivalence {r : α → α → Prop} (hr : Equivalence r) (hEs : ∀ e ∈ Es, r e.1 e.2) (h : Joined Es a b) :
    r a b := by
  induction h with
  | rel a b hab => exact hEs _ hab
  | refl a => exact hr.refl a
  | symm a b _ ih => exact hr.symm ih
  | trans a b c _ _ ih ih' => exact hr.trans ih ih'

theorem Joined.of_joined (hEs : ∀ e ∈ Es, Joined Fs e.1 e.2) (h : Joined Es a b) : Joined Fs a b :=
  h.of_equivalence (EqvGen.is_equivalence _) hEs

theorem Joined.mono (hsub : Es ⊆ Fs) (h : Joined Es a b) : Joined Fs a b :=
  h.of_joined fun _ he => joined_of_mem (hsub he)

theorem joined_cons : Joined (e :: Es) a b ↔
    Joined Es a b ∨ Joined Es a e.1 ∧ Joined Es e.2 b ∨ Joined Es a e.2 ∧ Joined Es e.1 b := by
  have hsub : Es ⊆ e :: Es := subset_cons_self e Es
  have he : Joined (e :: Es) e.1 e.2 := joined_of_mem mem_cons_self
  constructor
  · intro h
    refine h.of_equivalence (r := fun a b =>
      Joined Es a b ∨ Joined Es a e.1 ∧ Joined Es e.2 b ∨ Joined Es a e.2 ∧ Joined Es e.1 b) ⟨?_, ?_, ?_⟩ ?_
    · intro a
      exact .inl joined_refl
    · rintro a b (h | ⟨h, h'⟩ | ⟨h, h'⟩)
      · exact .inl h.symm
      · exact .inr (.inr ⟨h'.symm, h.symm⟩)
      · exact .inr (.inl ⟨h'.symm, h.symm⟩)
    · rintro a b c (h | ⟨h, h'⟩ | ⟨h, h'⟩) (k | ⟨k, k'⟩ | ⟨k, k'⟩)
      · exact .inl (h.trans k)
      · exact .inr (.inl ⟨h.trans k, k'⟩)
      · exact .inr (.inr ⟨h.trans k, k'⟩)
      · exact .inr (.inl ⟨h, h'.trans k⟩)
      · exact .inr (.inl ⟨h, k'⟩)
      · exact .inl (h.trans k')
      · exact .inr (.inr ⟨h, h'.trans k⟩)
      · exact .inl (h.trans k')
      · exact .inr (.inr ⟨h, k'⟩)
    · intro f hf
      rcases mem_cons.1 hf with rfl | hf
      · exact .inr (.inl ⟨joined_refl, joined_refl⟩)
      · exact .inl (joined_of_mem hf)
  · rintro (h | ⟨h, h'⟩ | ⟨h, h'⟩)
    · exact h.mono hsub
    · exact ((h.mono hsub).trans he).trans (h'.mono hsub)
    · exact ((h.mono hsub).trans he.symm).trans (h'.mono hsub)

theorem Joined.eq_of_isolated (hv : ∀ e ∈ Es, e.1 ≠ v ∧ e.2 ≠ v) (h : Joined Es a b) : a = v ↔ b = v := by
  refine h.of_equivalence (r := fun a b => (a = v ↔ b = v)) ⟨fun _ => Iff.rfl, Iff.symm, Iff.trans⟩ ?_
  intro e he
  exact iff_of_false (hv e he).1 (hv e he).2

/-! ## Forests -/

def IsForest (Es : List (α × α)) : Prop := ∀ e Fs, Es.Perm (e :: Fs) → ¬ Joined Fs e.1 e.2

theorem isForest_nil : IsForest ([] : List (α × α)) := by
  intro e Fs hperm
  exact absurd hperm.length_eq.symm (Nat.succ_ne_zero _)

theorem IsForest.perm (h : IsForest Es) (hperm : Es.Perm Fs) : IsForest Fs :=
  fun e Gs hGs => h e Gs (hperm.trans hGs)

theorem isForest_cons : IsForest (e :: Es) ↔ IsForest Es ∧ ¬ Joined Es e.1 e.2 := by
  constructor
  · intro h
    refine ⟨?_, h e Es (List.Perm.refl _)⟩
    intro f Fs hperm hjoined
    refine h f (e :: Fs) ?_ (hjoined.mono (subset_cons_self e Fs))
    exact (hperm.cons e).trans (List.Perm.swap f e Fs)
  · rintro ⟨hEs, he⟩ f Fs hperm hjoined
    by_cases heq : f = e
    · subst heq
      exact he (hjoined.mono (List.Perm.cons_inv hperm).symm.subset)
    · have hf : f ∈ Es := (mem_cons.1 (hperm.mem_iff.2 mem_cons_self)).resolve_left heq
      obtain ⟨A, B, rfl⟩ := append_of_mem hf
      have hmid : (A ++ f :: B).Perm (f :: (A ++ B)) := perm_middle
      have hFs : (e :: (A ++ B)).Perm Fs :=
        List.Perm.cons_inv (((List.Perm.swap e f (A ++ B)).trans (hmid.symm.cons e)).trans hperm)
      have hf' := hEs f (A ++ B) hmid
      -- the path between the ends of `f` takes `e`, so that `f` joins the ends of `e`
      have hsub : A ++ B ⊆ A ++ f :: B := List.Subset.trans (subset_cons_self f (A ++ B)) hmid.symm.subset
      have hfj : Joined (A ++ f :: B) f.1 f.2 := joined_of_mem hf
      rcases joined_cons.1 (hjoined.mono hFs.symm.subset) with h | ⟨h, h'⟩ | ⟨h, h'⟩
      · exact hf' h
      · exact he (((h.symm.mono hsub).trans hfj).trans (h'.symm.mono hsub))
      · exact he (((h'.mono hsub).trans hfj.symm).trans (h.mono hsub))

theorem IsForest.sublist (h : IsForest Fs) (hsub : Es.Sublist Fs) : IsForest Es := by
  induction hsub with
  | slnil => exact h
  | cons f _ ih => exact ih (isForest_cons.1 h).1
  | cons_cons e hsub ih =>
    obtain ⟨hFs, he⟩ := isForest_cons.1 h
    exact isForest_cons.2 ⟨ih hFs, fun hjoined => he (hjoined.mono hsub.subset)⟩

/-! ## Ranks -/

noncomputable def vec (e : α × α) : α →₀ ℚ := Finsupp.single e.1 1 - Finsupp.single e.2 1

theorem Joined.sub_mem_span (h : Joined Es a b) : vec (a, b) ∈ Submodule.span ℚ (vec '' {e | e ∈ Es}) := by
  refine h.of_equivalence (r := fun a b => vec (a, b) ∈ Submodule.span ℚ (vec '' {e | e ∈ Es})) ⟨?_, ?_, ?_⟩ ?_
  · intro a
    unfold vec
    rw [sub_self]
    exact Submodule.zero_mem _
  · intro a b hab
    have hneg := Submodule.neg_mem _ hab
    unfold vec at hneg ⊢
    rwa [neg_sub] at hneg
  · intro a b c hab hbc
    have hadd := Submodule.add_mem _ hab hbc
    unfold vec at hadd ⊢
    rwa [sub_add_sub_cancel] at hadd
  · intro e he
    exact Submodule.subset_span ⟨e, he, rfl⟩

open Classical in
/-- Takes the sum over the vertices that `Es` joins to `v`. -/
noncomputable def classSum (Es : List (α × α)) (v : α) : (α →₀ ℚ) →ₗ[ℚ] ℚ :=
  Finsupp.linearCombination ℚ fun a => if Joined Es v a then 1 else 0

open Classical in
theorem classSum_vec : classSum Es v (vec e) =
    (if Joined Es v e.1 then 1 else 0) - (if Joined Es v e.2 then 1 else 0) := by
  unfold classSum vec
  rw [map_sub, Finsupp.linearCombination_single, Finsupp.linearCombination_single, one_smul, one_smul]

theorem classSum_vec_of_joined (h : Joined Es e.1 e.2) : classSum Es v (vec e) = 0 := by
  have hiff : Joined Es v e.1 ↔ Joined Es v e.2 := ⟨fun hv => hv.trans h, fun hv => hv.trans h.symm⟩
  rw [classSum_vec]
  by_cases hv : Joined Es v e.1
  · rw [if_pos hv, if_pos (hiff.1 hv), sub_self]
  · rw [if_neg hv, if_neg fun hv' => hv (hiff.2 hv'), sub_self]

theorem classSum_vec_of_not_joined (h : ¬ Joined Es e.1 e.2) : classSum Es e.1 (vec e) = 1 := by
  rw [classSum_vec, if_pos joined_refl, if_neg h, sub_zero]

theorem IsForest.linearIndependent (h : IsForest Es) : LinearIndependent ℚ fun i : Fin Es.length => vec (Es.get i) := by
  rw [linearIndependent_iff']
  intro s g hsum i hi
  have hperm : Es.Perm (Es.get i :: Es.eraseIdx i) := (getElem_cons_eraseIdx_perm i.isLt).symm
  have hbridge := h _ _ hperm
  have happly := congrArg (classSum (Es.eraseIdx i) (Es.get i).1) hsum
  have hothers : ∀ j ∈ s, j ≠ i → g j • classSum (Es.eraseIdx i) (Es.get i).1 (vec (Es.get j)) = 0 := by
    intro j _ hji
    have hj : Es.get j ∈ Es.eraseIdx i :=
      mem_eraseIdx_iff_getElem.2 ⟨j, j.isLt, fun heq => hji (Fin.ext heq), rfl⟩
    rw [classSum_vec_of_joined (joined_of_mem hj), smul_zero]
  rw [map_sum, map_zero] at happly
  simp only [map_smul] at happly
  rw [Finset.sum_eq_single_of_mem i hi hothers, classSum_vec_of_not_joined hbridge, smul_eq_mul, mul_one] at happly
  exact happly

theorem IsForest.length_le (h : IsForest Fs) (hjoined : ∀ e ∈ Fs, Joined Gs e.1 e.2) : Fs.length ≤ Gs.length := by
  classical
  have hspan : Set.range (fun i : Fin Fs.length => vec (Fs.get i)) ≤
      (Submodule.span ℚ (Set.range fun j : Fin Gs.length => vec (Gs.get j)) : Set (α →₀ ℚ)) := by
    rintro _ ⟨i, rfl⟩
    apply Submodule.span_mono _ (hjoined _ (get_mem Fs i)).sub_mem_span
    rintro _ ⟨e, he, rfl⟩
    obtain ⟨j, rfl⟩ := get_of_mem he
    exact ⟨j, rfl⟩
  calc Fs.length = Fintype.card (Fin Fs.length) := (Fintype.card_fin _).symm
    _ ≤ Fintype.card (Set.range fun j : Fin Gs.length => vec (Gs.get j)) :=
      linearIndependent_le_span_aux' _ h.linearIndependent _ hspan
    _ ≤ Fintype.card (Fin Gs.length) := Fintype.card_range_le _
    _ = Gs.length := Fintype.card_fin _

/-! ## Spanning trees -/

def Connects (Es : List (α × α)) (S : List α) : Prop := ∀ a ∈ S, ∀ b ∈ S, Joined Es a b

section
variable {S : List α}

theorem joined_star (ha : a ∈ v :: S) : Joined (S.map (v, ·)) v a := by
  rcases mem_cons.1 ha with rfl | ha
  · exact joined_refl
  · exact joined_of_mem (mem_map_of_mem (f := (v, ·)) ha)

theorem isForest_star (hnodup : (v :: S).Nodup) : IsForest (S.map (v, ·)) := by
  induction S with
  | nil => exact isForest_nil
  | cons u S ih =>
    obtain ⟨hv, hS⟩ := nodup_cons.1 hnodup
    obtain ⟨hu, hS'⟩ := nodup_cons.1 hS
    have hvS : v ∉ S := fun h => hv (mem_cons_of_mem u h)
    have hvu : v ≠ u := fun h => hv (h ▸ mem_cons_self)
    refine isForest_cons.2 ⟨ih (nodup_cons.2 ⟨hvS, hS'⟩), ?_⟩
    intro hjoined
    have hisolated : ∀ e ∈ S.map (v, ·), e.1 ≠ u ∧ e.2 ≠ u := by
      intro e he
      obtain ⟨w, hw, rfl⟩ := mem_map.1 he
      exact ⟨hvu, fun heq => hu (heq ▸ hw)⟩
    exact hvu ((hjoined.eq_of_isolated hisolated).2 rfl)

section
variable (h : IsForest Es) (hEs : ∀ e ∈ Es, e.1 ∈ S ∧ e.2 ∈ S)
include h hEs

theorem IsForest.length_lt (hS : S ≠ []) : Es.length < S.length := by
  obtain ⟨v, S', rfl⟩ := exists_cons_of_ne_nil hS
  apply Nat.lt_succ_of_le
  have hstar : (S'.map (v, ·)).length = S'.length := length_map _
  rw [← hstar]
  exact h.length_le fun e he => (joined_star (hEs e he).1).symm.trans (joined_star (hEs e he).2)

theorem IsForest.connects (hlen : S.length ≤ Es.length + 1) : Connects Es S := by
  intro a ha b hb
  by_contra hjoined
  have hcons : IsForest ((a, b) :: Es) := isForest_cons.2 ⟨h, hjoined⟩
  have hlt := hcons.length_lt (forall_mem_cons.2 ⟨⟨ha, hb⟩, hEs⟩) (ne_nil_of_mem ha)
  exact absurd hlt (Nat.not_lt.2 hlen)

end

theorem Connects.length_le (h : Connects Es S) (hnodup : S.Nodup) : S.length ≤ Es.length + 1 := by
  cases S with
  | nil => exact Nat.zero_le _
  | cons v S =>
    apply Nat.succ_le_succ
    have hstar : (S.map (v, ·)).length = S.length := length_map _
    rw [← hstar]
    apply (isForest_star hnodup).length_le
    intro e he
    obtain ⟨u, hu, rfl⟩ := mem_map.1 he
    exact h v mem_cons_self u (mem_cons_of_mem v hu)

end

section
variable {W : Type*} [AddCommMonoid W] [LinearOrder W] [IsOrderedAddMonoid W]

theorem sum_le_of_countP_sorted {K T : List W} (hK : K.Pairwise (· ≤ ·)) (hT : T.Pairwise (· ≤ ·))
    (hlen : K.length = T.length) (hcount : ∀ w, T.countP (· ≤ w) ≤ K.countP (· ≤ w)) : K.sum ≤ T.sum := by
  induction K generalizing T with
  | nil =>
    rw [length_eq_zero_iff.1 hlen.symm]
  | cons k K ih =>
    cases T with
    | nil => exact absurd hlen (Nat.succ_ne_zero _)
    | cons t T =>
      obtain ⟨hk, hK⟩ := pairwise_cons.1 hK
      obtain ⟨ht, hT⟩ := pairwise_cons.1 hT
      have hle : k ≤ t := by
        have hpos : 0 < (k :: K).countP (· ≤ t) := by
          refine Nat.lt_of_lt_of_le ?_ (hcount t)
          exact countP_pos_iff.2 ⟨t, mem_cons_self, decide_eq_true (le_refl t)⟩
        obtain ⟨u, hu, hut⟩ := countP_pos_iff.1 hpos
        rcases mem_cons.1 hu with rfl | hu
        · exact of_decide_eq_true hut
        · exact (hk u hu).trans (of_decide_eq_true hut)
      rw [sum_cons, sum_cons]
      apply add_le_add hle
      apply ih hK hT (Nat.succ.inj hlen)
      intro w
      by_cases hw : t ≤ w
      · have hw' := hcount w
        rw [countP_cons_of_pos (p := (· ≤ w)) (decide_eq_true hw),
          countP_cons_of_pos (p := (· ≤ w)) (decide_eq_true (hle.trans hw))] at hw'
        exact Nat.le_of_succ_le_succ hw'
      · have hzero : T.countP (· ≤ w) = 0 := by
          apply countP_eq_zero.2
          intro u hu
          rw [decide_eq_true_eq]
          exact fun huw => hw ((ht u hu).trans huw)
        rw [hzero]
        exact Nat.zero_le _

theorem sum_le_of_countP {K T : List W} (hlen : K.length = T.length)
    (hcount : ∀ w, T.countP (· ≤ w) ≤ K.countP (· ≤ w)) : K.sum ≤ T.sum := by
  have hK := perm_insertionSort (· ≤ ·) K
  have hT := perm_insertionSort (· ≤ ·) T
  rw [← hK.sum_eq, ← hT.sum_eq]
  apply sum_le_of_countP_sorted (pairwise_insertionSort _ K) (pairwise_insertionSort _ T)
  · rw [hK.length_eq, hT.length_eq, hlen]
  · intro w
    rw [hK.countP_eq, hT.countP_eq]
    exact hcount w

theorem IsForest.sum_le {E : Type*} {ends : E → α × α} {wt : E → W} {K T : List E} (hT : IsForest (T.map ends))
    (hlen : K.length = T.length)
    (hK : ∀ e ∈ T, Joined ((K.filter fun f => wt f ≤ wt e).map ends) (ends e).1 (ends e).2) :
    (K.map wt).sum ≤ (T.map wt).sum := by
  apply sum_le_of_countP
  · rw [length_map, length_map, hlen]
  · intro w
    rw [countP_map, countP_map, countP_eq_length_filter, countP_eq_length_filter, ← length_map ends, ← length_map ends]
    apply (hT.sublist (filter_sublist.map ends)).length_le
    intro p hp
    obtain ⟨e, he, rfl⟩ := mem_map.1 hp
    obtain ⟨heT, hew⟩ := mem_filter.1 he
    apply (hK e heT).mono
    apply map_subset
    intro f hf
    obtain ⟨hfK, hfe⟩ := mem_filter.1 hf
    exact mem_filter.2 ⟨hfK, decide_eq_true ((of_decide_eq_true hfe).trans (of_decide_eq_true hew))⟩

end

end SpanningForests
