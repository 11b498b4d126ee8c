import Mathlib.Dynamics.PeriodicPts.Lemmas

/-!
# One cycle through a finite set of vertices

* `oneCycle_image` : renaming the vertices.
-/

namespace Cycles
open Relation Function Finset

variable {α R : Type*} {E : α → α → Prop} {S : Finset α}

/-- The edges are inside `S`, with one edge out of every vertex and one edge into it. -/
structure Linked (E : α → α → Prop) (S : Finset α) : Prop where
  mem : ∀ u v, E u v → u ∈ S ∧ v ∈ S
  out : ∀ u ∈ S, ∃! v, E u v
  into : ∀ v ∈ S, ∃! u, E u v

/-- The edges are those of one directed cycle that visits every vertex of `S` once. -/
def OneCycle (E : α → α → Prop) (S : Finset α) : Prop :=
  Linked E S ∧ ∀ u ∈ S, ∀ v ∈ S, ReflTransGen E u v

/-! ## The edges as a function -/

theorem Linked.exists_next (h : Linked E S) : ∃ f : S → S, Injective f ∧ ∀ u v : S, E u v ↔ f u = v := by
  choose g hg huniq using fun u : S => h.out u u.2
  refine ⟨fun u => ⟨g u, (h.mem _ _ (hg u)).2⟩, ?_, ?_⟩
  · intro u v huv
    have hval : g u = g v := congrArg Subtype.val huv
    have hv := hg v
    rw [← hval] at hv
    exact Subtype.ext ((h.into _ (h.mem _ _ (hg u)).2).unique (hg u) hv)
  · intro u v
    constructor
    · intro huv
      exact Subtype.ext (huniq u v huv).symm
    · rintro rfl
      exact hg u

variable {f : S → S}

theorem iterate_of_reflTransGen (hmem : ∀ u v, E u v → u ∈ S ∧ v ∈ S) (hf : ∀ u v : S, E u v ↔ f u = v)
    (u : S) {v : α} (huv : ReflTransGen E u v) : ∃ k, (f^[k] u : α) = v := by
  induction huv with
  | refl => exact ⟨0, rfl⟩
  | @tail b c _ hbc ih =>
    obtain ⟨k, rfl⟩ := ih
    have hk := (hf _ ⟨c, (hmem _ _ hbc).2⟩).1 hbc
    refine ⟨k + 1, ?_⟩
    rw [iterate_succ_apply', hk]

theorem reflTransGen_iterate (hf : ∀ u v : S, E u v ↔ f u = v) (u : S) (k : ℕ) : ReflTransGen E u (f^[k] u : S) := by
  induction k with
  | zero => exact ReflTransGen.refl
  | succ k ih =>
    rw [iterate_succ_apply']
    exact ih.tail ((hf _ _).2 rfl)

theorem iterate_symm (hinj : Injective f) {u v : S} {k : ℕ} (h : f^[k] u = v) : ∃ m, f^[m] v = u := by
  obtain ⟨p, hp, hper⟩ := hinj.mem_periodicPts u
  refine ⟨k * p - k, ?_⟩
  have hle : k ≤ k * p := Nat.le_mul_of_pos_right k hp
  rw [← h, ← iterate_add_apply, Nat.sub_add_cancel hle]
  exact (hper.const_mul k).eq

theorem minimalPeriod_lt_card {start : S} (x : S) (havoid : ∀ k, f^[k] x ≠ start) : minimalPeriod f x < S.card := by
  classical
  have hcard : (Finset.range (minimalPeriod f x)).card ≤ ((Finset.univ : Finset S).erase start).card := by
    refine card_le_card_of_injOn (fun k => f^[k] x) ?_ ?_
    · intro k _
      exact mem_coe.2 (Finset.mem_erase.2 ⟨havoid k, mem_univ _⟩)
    · intro m hm n hn hmn
      exact iterate_injOn_Iio_minimalPeriod (mem_range.1 (mem_coe.1 hm))
        (mem_range.1 (mem_coe.1 hn)) hmn
  rw [card_range, card_erase_of_mem (mem_univ start), card_univ, Fintype.card_coe] at hcard
  have hpos : 0 < S.card := Finset.card_pos.2 ⟨start, start.2⟩
  omega

/-- Where every edge steps the rank, except the edges into the start, and the steps come back to no rank of a
vertex in fewer steps than there are vertices, there is one cycle only. -/
theorem Linked.oneCycle_of_rank (h : Linked E S) {start : α} (hs : start ∈ S) (rank : α → R) (step : R → R)
    (hrank : ∀ u v, E u v → v ≠ start → rank v = step (rank u))
    (hstep : ∀ u ∈ S, ∀ p, 0 < p → p < S.card → step^[p] (rank u) ≠ rank u) : OneCycle E S := by
  obtain ⟨f, hinj, hf⟩ := h.exists_next
  -- every vertex reaches the start: a cycle that avoids it would bring a rank back too early
  have hreach : ∀ x : S, ∃ k, f^[k] x = ⟨start, hs⟩ := by
    intro x
    by_contra hno
    push Not at hno
    have hiter : ∀ k, rank (f^[k] x : S) = step^[k] (rank x) := by
      intro k
      induction k with
      | zero => rfl
      | succ k ih =>
        rw [iterate_succ_apply', iterate_succ_apply', ← ih]
        apply hrank _ _ ((hf _ _).2 rfl)
        intro heq
        apply hno (k + 1)
        rw [iterate_succ_apply']
        exact Subtype.ext heq
    have hper : step^[minimalPeriod f x] (rank x) = rank x := by
      rw [← hiter, iterate_minimalPeriod]
    exact hstep x x.2 _ (minimalPeriod_pos_of_mem_periodicPts (hinj.mem_periodicPts x))
      (minimalPeriod_lt_card x hno) hper
  refine ⟨h, ?_⟩
  intro u hu v hv
  obtain ⟨k, hk⟩ := hreach ⟨u, hu⟩
  obtain ⟨m, hm⟩ := hreach ⟨v, hv⟩
  obtain ⟨n, hn⟩ := iterate_symm hinj hm
  have h1 := reflTransGen_iterate hf ⟨u, hu⟩ k
  have h2 := reflTransGen_iterate hf ⟨start, hs⟩ n
  rw [hk] at h1
  rw [hn] at h2
  exact h1.trans h2

theorem OneCycle.exists_position (h : OneCycle E S) {start : α} (hs : start ∈ S) :
    ∃ pos : α → ℕ, pos start = 0 ∧ (∀ v ∈ S, pos v < S.card) ∧
      (∀ u v, E u v → v ≠ start → pos v = pos u + 1) ∧ ∀ u, E u start → pos u + 1 = S.card := by
  classical
  obtain ⟨hlink, hconn⟩ := h
  obtain ⟨f, hinj, hf⟩ := hlink.exists_next
  set s : S := ⟨start, hs⟩ with hsdef
  set p := minimalPeriod f s with hp
  have hpos : 0 < p := minimalPeriod_pos_of_mem_periodicPts (hinj.mem_periodicPts s)
  have hex : ∀ v : S, ∃ k, k < p ∧ f^[k] s = v := by
    intro v
    obtain ⟨k, hk⟩ := iterate_of_reflTransGen hlink.mem hf s (hconn _ hs _ v.2)
    refine ⟨k % p, Nat.mod_lt _ hpos, ?_⟩
    rw [hp, iterate_mod_minimalPeriod_eq]
    exact Subtype.ext hk
  choose place hlt hplace using hex
  have huniq : ∀ k, k < p → ∀ v : S, f^[k] s = v → place v = k := by
    intro k hk v hv
    exact iterate_injOn_Iio_minimalPeriod (hlt v) hk ((hplace v).trans hv.symm)
  -- the period is the number of vertices
  have hcard : p = S.card := by
    rw [← Fintype.card_coe, ← Fintype.card_fin p]
    refine Fintype.card_congr (Equiv.ofBijective (fun k : Fin p => f^[k] s) ⟨?_, ?_⟩)
    · intro m n hmn
      exact Fin.ext (iterate_injOn_Iio_minimalPeriod m.2 n.2 hmn)
    · intro v
      exact ⟨⟨place v, hlt v⟩, hplace v⟩
  have hnext : ∀ u v : S, E u v → f^[place u + 1] s = v := by
    intro u v huv
    rw [iterate_succ_apply', hplace, (hf u v).1 huv]
  obtain ⟨pos, hpl⟩ : ∃ pos : α → ℕ, ∀ v (hv : v ∈ S), pos v = place ⟨v, hv⟩ :=
    ⟨fun v => if hv : v ∈ S then place ⟨v, hv⟩ else 0, fun v hv => dif_pos hv⟩
  refine ⟨pos, ?_, ?_, ?_, ?_⟩
  · rw [hpl start hs]
    exact huniq 0 hpos s rfl
  · intro v hv
    rw [hpl v hv, ← hcard]
    exact hlt _
  · intro u v huv hne
    obtain ⟨hu, hv⟩ := hlink.mem u v huv
    rw [hpl u hu, hpl v hv]
    have hn := hnext ⟨u, hu⟩ ⟨v, hv⟩ huv
    rcases Nat.lt_or_ge (place ⟨u, hu⟩ + 1) p with hl | hg
    · exact huniq _ hl _ hn
    · exfalso
      have heq : place ⟨u, hu⟩ + 1 = p := by
        have := hlt ⟨u, hu⟩
        omega
      rw [heq, hp, iterate_minimalPeriod] at hn
      exact hne (congrArg Subtype.val hn).symm
  · intro u hus
    obtain ⟨hu, -⟩ := hlink.mem u start hus
    rw [hpl u hu, ← hcard]
    have hn := hnext ⟨u, hu⟩ s hus
    have hdvd : p ∣ place ⟨u, hu⟩ + 1 := IsPeriodicPt.minimalPeriod_dvd hn
    have hle := Nat.le_of_dvd (Nat.succ_pos _) hdvd
    have hl := hlt ⟨u, hu⟩
    omega

theorem OneCycle.card_le_two (h : OneCycle E S) {u v : α} (huv : E u v) (hvu : E v u) : S.card ≤ 2 := by
  classical
  obtain ⟨hlink, hconn⟩ := h
  have hu := (hlink.mem u v huv).1
  have hv := (hlink.mem u v huv).2
  -- nothing leaves the two vertices
  have hclosed : ∀ w, ReflTransGen E u w → w = u ∨ w = v := by
    intro w hw
    induction hw with
    | refl => exact .inl rfl
    | tail _ hbc ih =>
      rcases ih with rfl | rfl
      · exact .inr ((hlink.out _ hu).unique hbc huv)
      · exact .inl ((hlink.out _ hv).unique hbc hvu)
  have hsub : S ⊆ {u, v} := by
    intro w hw
    rw [mem_insert, mem_singleton]
    exact hclosed w (hconn u hu w hw)
  exact (card_le_card hsub).trans Finset.card_le_two

section
variable {β : Type*} [DecidableEq β] {E' : β → β → Prop} {g : α → β}

section
variable (hinj : Set.InjOn g S) (hmem : ∀ u v, E u v → u ∈ S ∧ v ∈ S) (hE : ∀ u ∈ S, ∀ v ∈ S, (E' (g u) (g v) ↔ E u v))
  (hmem' : ∀ a b, E' a b → a ∈ S.image g ∧ b ∈ S.image g)
include hinj hmem hE hmem'

theorem linked_image : Linked E' (S.image g) ↔ Linked E S := by
  constructor
  · intro h
    refine ⟨hmem, ?_, ?_⟩
    · intro u hu
      obtain ⟨b, hb, huniq⟩ := h.out (g u) (mem_image_of_mem g hu)
      obtain ⟨v, hv, rfl⟩ := mem_image.1 (hmem' _ _ hb).2
      refine ⟨v, (hE u hu v hv).1 hb, ?_⟩
      intro w hw
      have hwS := (hmem u w hw).2
      exact hinj hwS hv (huniq _ ((hE u hu w hwS).2 hw))
    · intro v hv
      obtain ⟨a, ha, huniq⟩ := h.into (g v) (mem_image_of_mem g hv)
      obtain ⟨u, hu, rfl⟩ := mem_image.1 (hmem' _ _ ha).1
      refine ⟨u, (hE u hu v hv).1 ha, ?_⟩
      intro w hw
      have hwS := (hmem w v hw).1
      exact hinj hwS hu (huniq _ ((hE w hwS v hv).2 hw))
  · intro h
    refine ⟨hmem', ?_, ?_⟩
    · intro a ha
      obtain ⟨u, hu, rfl⟩ := mem_image.1 ha
      obtain ⟨v, hv, huniq⟩ := h.out u hu
      have hvS := (hmem u v hv).2
      refine ⟨g v, (hE u hu v hvS).2 hv, ?_⟩
      intro b hb
      obtain ⟨w, hw, rfl⟩ := mem_image.1 (hmem' _ _ hb).2
      rw [huniq w ((hE u hu w hw).1 hb)]
    · intro b hb
      obtain ⟨v, hv, rfl⟩ := mem_image.1 hb
      obtain ⟨u, hu, huniq⟩ := h.into v hv
      have huS := (hmem u v hu).1
      refine ⟨g u, (hE u huS v hv).2 hu, ?_⟩
      intro a ha
      obtain ⟨w, hw, rfl⟩ := mem_image.1 (hmem' _ _ ha).1
      rw [huniq w ((hE w hw v hv).1 ha)]

theorem oneCycle_image : OneCycle E' (S.image g) ↔ OneCycle E S := by
  refine and_congr (linked_image hinj hmem hE hmem') ⟨?_, ?_⟩
  · intro h u hu v hv
    -- the path stays among the renamed vertices
    have hback : ∀ b, ReflTransGen E' (g u) b → ∃ w ∈ S, g w = b ∧ ReflTransGen E u w := by
      intro b hb
      induction hb with
      | refl => exact ⟨u, hu, rfl, ReflTransGen.refl⟩
      | @tail b c _ hbc ih =>
        obtain ⟨w, hw, rfl, hpath⟩ := ih
        obtain ⟨x, hx, rfl⟩ := mem_image.1 (hmem' _ _ hbc).2
        exact ⟨x, hx, rfl, hpath.tail ((hE w hw x hx).1 hbc)⟩
    obtain ⟨w, hw, hgw, hpath⟩ := hback _ (h _ (mem_image_of_mem g hu) _ (mem_image_of_mem g hv))
    rwa [hinj hw hv hgw] at hpath
  · intro h a ha b hb
    obtain ⟨u, hu, rfl⟩ := mem_image.1 ha
    obtain ⟨v, hv, rfl⟩ := mem_image.1 hb
    apply (h u hu v hv).lift g
    intro x y hxy
    exact (hE x (hmem x y hxy).1 y (hmem x y hxy).2).2 hxy

end

end

end Cycles
