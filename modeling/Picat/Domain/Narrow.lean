import Picat.Domain.Words

/-!
# The primitives narrow a domain

One specification for each routine that narrows the domain of a variable, in a form that serves the
callers that know the size exactly and those that only know that it is not too small.

* `domainSetFalseNoint_narrowed`, `callDomainRegion_narrowed`, `domainExcludeIntervalNoint_narrowed` : what
  is left of the domain, whenever something is.
-/

namespace Picat

open BitScan Finset

def Dvar.Enough (d : Dvar) : Prop := (d.elems.card : ℤ) ≤ d.size

/-- The recorded size is right, and the variable has a choice left. -/
def Dvar.Exact (d : Dvar) : Prop := d.size = d.elems.card ∧ d.first < d.last

theorem Dvar.Exact.enough {d : Dvar} (h : d.Exact) : d.Enough := h.1.ge

/-- `d'` is `d` narrowed to the set `S`: with new fields, or assigned the only element of `S`. -/
inductive Narrowed (d : Dvar) (S : Finset ℤ) (fits : Prop) : Dvar → Prop
  | updated {d' : Dvar} (hvar : d'.var = d.var) (hcs : d'.outerDomCs = d.outerDomCs)
      (hrange : d.type.SameRange d'.type) (hshape : d'.Shape) (helems : d'.elems = S) (henough : d'.Enough)
      (hexact : d.Exact → (fits ↔ d'.Exact)) : Narrowed d S fits d'
  | assigned {v : ℤ} (hS : S = {v}) (hexact : d.Exact → fits) : Narrowed d S fits (assignDvar d v)

variable {S : Finset ℤ} {f t : ℤ} {fits : Prop}

section
variable {d : Dvar} {x y e : ℤ}

/-! ## Parts of the set -/

theorem Dvar.elems_inter_Icc (d : Dvar) (f t : ℤ) :
    d.elems ∩ Finset.Icc f t = members d.type.has (max d.first f) (min d.last t) := by
  ext x
  simp only [mem_inter, Dvar.mem_elems, mem_Icc, mem_members, max_le_iff, le_min_iff]
  tauto

theorem Dvar.Shape.card_pos (h : d.Shape) : 0 < d.elems.card :=
  Finset.card_pos.2 ⟨_, h.first_mem_elems⟩

theorem Dvar.Shape.elems_of_card_le_two (h : d.Shape) (hlt : d.first < d.last) (hcard : d.elems.card ≤ 2) :
    d.elems = {d.first, d.last} := by
  symm
  refine eq_of_subset_of_card_le ?_ (hcard.trans_eq (card_pair hlt.ne).symm)
  exact insert_subset h.first_mem_elems (singleton_subset_iff.2 h.last_mem_elems)

theorem RemovesInner.narrowed {r : Except Stop Dvar} (h : d.Shape) (hsize : d.Enough)
    (hf : d.first < f) (ht : t < d.last) (hr : RemovesInner d f t r) :
    ∃ d', r = .ok d' ∧ Narrowed d (d.elems \ Finset.Icc f t) True d' := by
  obtain ⟨b, s, rfl, hfill, hrange, rfl, hhas⟩ := hr
  have hle := h.le
  have helems : Dvar.elems { d with type := .bv b, size := d.size - (members d.type.has f t).card } =
      d.elems \ Finset.Icc f t := by
    ext x
    simp only [Dvar.mem_elems, mem_sdiff, mem_Icc, DvType.has_bv]
    constructor
    · intro hp
      obtain ⟨⟨hx, hxl⟩, hmem⟩ := hp
      rw [hhas x hx hxl, Bool.and_eq_true, Bool.not_eq_true', decide_eq_false_iff_not] at hmem
      exact ⟨⟨⟨hx, hxl⟩, hmem.1⟩, hmem.2⟩
    · intro hp
      obtain ⟨⟨⟨hx, hxl⟩, hmem⟩, hnot⟩ := hp
      exact ⟨⟨hx, hxl⟩, by rw [hhas x hx hxl, hmem, decide_eq_false hnot]; rfl⟩
  have hcard : ((d.elems \ Finset.Icc f t).card : ℤ) = d.elems.card - (members d.type.has f t).card := by
    have hinter : Finset.Icc f t ∩ d.elems = members d.type.has f t := by
      rw [inter_comm, d.elems_inter_Icc, max_eq_right hf.le, min_eq_right ht.le]
    rw [card_sdiff, hinter]
    have := card_le_card (show Finset.Icc f t ∩ d.elems ⊆ d.elems from inter_subset_right)
    rw [hinter] at this
    omega
  refine ⟨_, rfl, .updated rfl rfl hrange ⟨hle, ?_, ?_, ?_⟩ helems ?_ fun hex => iff_of_true trivial ⟨?_, hex.2⟩⟩
  · rw [DvType.has_bv, hhas _ (le_refl _) hle, h.first_mem, decide_eq_false (by omega)]
    rfl
  · rw [DvType.has_bv, hhas _ hle (le_refl _), h.last_mem, decide_eq_false (by omega)]
    rfl
  · rintro b' hb'
    rwa [← DvType.bv.inj hb']
  · unfold Dvar.Enough at hsize ⊢
    rw [helems, hcard]
    simpa using hsize
  · rw [helems, hcard, hex.1]

theorem narrowed_bounds {s : ℤ} (h : d.Shape) (hft : f ≤ t)
    (hmf : d.type.has f = true) (hmt : d.type.has t = true) (hS : members d.type.has f t = S)
    (henough : (S.card : ℤ) ≤ s) (hexact : d.Exact → (fits ↔ s = S.card) ∧ s ≠ 1) :
    Narrowed d S fits { d with first := f, last := t, size := s } := by
  have hcard : ((Dvar.elems { d with first := f, last := t, size := s }).card : ℤ) = S.card :=
    congrArg (fun T : Finset ℤ => (T.card : ℤ)) hS
  refine .updated rfl rfl (.refl _) ⟨hft, hmf, hmt, h.filled⟩ hS (hcard.trans_le henough) fun hex => ?_
  obtain ⟨hfits, hone⟩ := hexact hex
  refine hfits.trans ⟨fun hs => ⟨hs.trans hcard.symm, lt_of_le_of_ne hft fun heq => hone ?_⟩,
    fun hs => hs.1.trans hcard⟩
  have heq' : t = f := heq.symm
  subst heq'
  rw [hs, ← hS, card_members_self, hmf]
  rfl

/-! ## Excluding an element -/

theorem Dvar.elems_erase_first (d : Dvar) : d.elems.erase d.first = members d.type.has (d.first + 1) d.last := by
  ext x
  simp only [Finset.mem_erase, Dvar.mem_elems, mem_members]
  constructor
  · intro h
    obtain ⟨hne, ⟨hf, hl⟩, hm⟩ := h
    exact ⟨⟨by omega, hl⟩, hm⟩
  · intro h
    obtain ⟨⟨hf, hl⟩, hm⟩ := h
    exact ⟨by omega, ⟨by omega, hl⟩, hm⟩

theorem Dvar.elems_erase_last (d : Dvar) : d.elems.erase d.last = members d.type.has d.first (d.last - 1) := by
  ext x
  simp only [Finset.mem_erase, Dvar.mem_elems, mem_members]
  constructor
  · intro h
    obtain ⟨hne, ⟨hf, hl⟩, hm⟩ := h
    exact ⟨⟨hf, by omega⟩, hm⟩
  · intro h
    obtain ⟨⟨hf, hl⟩, hm⟩ := h
    exact ⟨by omega, ⟨hf, by omega⟩, hm⟩

theorem Dvar.Shape.lt_of_erase {e : ℤ} (h : d.Shape) (he : e = d.first ∨ e = d.last)
    (hne : (d.elems.erase e).Nonempty) : d.first < d.last := by
  apply lt_of_le_of_ne h.le
  intro heq
  obtain ⟨x, hx⟩ := hne
  obtain ⟨hxe, hx⟩ := Finset.mem_erase.1 hx
  have := (Dvar.mem_elems.1 hx).1
  rcases he with rfl | rfl <;> omega

section
variable (h : d.Shape)
include h

theorem Dvar.Shape.nextElm (hlow : ∀ b, d.type = .bv b → b.low ≤ x + 1) (hlt : x < d.last) :
    ∃ e, nextElm d x = .ok e ∧ NextIn d.type.has (x + 1) e ∧ e ≤ d.last := by
  obtain ⟨e, he, hel⟩ := exists_nextIn h.last_mem (show x + 1 ≤ d.last by omega)
  refine ⟨e, ?_, he, hel⟩
  unfold Picat.nextElm
  cases hd : d.type with
  | it =>
    rw [hd] at he
    rw [if_pos rfl, he.unique (NextIn.self (DvType.has_it _))]
    rfl
  | bv b =>
    rw [hd] at he
    simp only [reduceCtorEq, if_false, domainNextBv, Dvar.bvPtr, hd, bind, Except.bind]
    exact bvNextIn_eq (hlow b hd) he

theorem nextElm_eq (hx : d.first ≤ x + 1) (hxl : x < d.last) :
    ∃ e, nextElm d x = .ok e ∧ NextIn d.type.has (x + 1) e ∧ e ≤ d.last :=
  h.nextElm (fun _ hb => (h.low_le hb).trans hx) hxl

theorem prevElm_eq (hx : x - 1 ≤ d.last) (hxf : d.first < x) :
    ∃ e, prevElm d x = .ok e ∧ PrevIn d.type.has (x - 1) e ∧ d.first ≤ e := by
  obtain ⟨e, he, hel⟩ := exists_prevIn h.first_mem (show d.first ≤ x - 1 by omega)
  refine ⟨e, ?_, he, hel⟩
  unfold prevElm
  cases hd : d.type with
  | it =>
    rw [hd] at he
    rw [if_pos rfl, he.unique (PrevIn.self (DvType.has_it _))]
    rfl
  | bv b =>
    rw [hd] at he
    rw [if_neg (by simp), domainPrevBv_eq h hd hx he]

theorem inner_elm_removes (hf : d.first < e) (hl : e < d.last) :
    RemovesInner d e e (if d.type = .it then itToBvWithHole d e else excludeInnerElmBv d e) := by
  cases hd : d.type with
  | it => exact itToBvWithHole_removes hd hf hl
  | bv b => exact excludeInnerElmBv_removes h hd hf hl

theorem inner_interval_removes (hf : d.first < f) (hft : f ≤ t) (ht : t < d.last) :
    RemovesInner d f t (if d.type = .it then itToBvWithIntervalHoles d f t else excludeInnerIntervalBv d f t) := by
  cases hd : d.type with
  | it => exact itToBvWithIntervalHoles_removes hd hf hft ht
  | bv b => exact excludeInnerIntervalBv_removes h hd hf hft ht

theorem domainSetFalseNoint_narrowed (hsize : d.Enough) (hne : (d.elems.erase e).Nonempty) :
    ∃ d', domainSetFalseNoint d e = .ok d' ∧ Narrowed d (d.elems.erase e) True d' := by
  unfold domainSetFalseNoint
  by_cases hinner : e > d.first ∧ e < d.last
  · rw [if_pos hinner, erase_eq, ← Finset.Icc_self]
    exact (inner_elm_removes h hinner.1 hinner.2).narrowed h hsize hinner.1 hinner.2
  rw [if_neg hinner]
  -- a bound is taken out: with two elements left the other bound is the value
  have hcard : ∀ b, (b = d.first ∨ b = d.last) → e = b → ((d.elems.erase e).card : ℤ) = d.elems.card - 1 := by
    rintro b hb rfl
    have hmem : e ∈ d.elems := by
      rcases hb with rfl | rfl
      · exact h.first_mem_elems
      · exact h.last_mem_elems
    have := h.card_pos
    rw [card_erase_of_mem hmem]
    omega
  have hsize' : (d.elems.card : ℤ) ≤ d.size := hsize
  by_cases hfirst : e = d.first
  · have hlt := h.lt_of_erase (.inl hfirst) hne
    have hcard' := hcard _ (.inl rfl) hfirst
    subst hfirst
    rw [if_pos rfl]
    by_cases htwo : d.size = 2
    · rw [if_pos htwo]
      refine ⟨_, rfl, .assigned ?_ fun _ => trivial⟩
      rw [h.elems_of_card_le_two hlt (by omega), erase_insert (by simpa using hlt.ne)]
    · obtain ⟨f, hnext, hf, hfl⟩ := nextElm_eq h (show d.first ≤ d.first + 1 by omega) hlt
      rw [if_neg htwo]
      refine ⟨_, by simp only [hnext, bind, Except.bind, pure, Except.pure]; rfl, ?_⟩
      refine narrowed_bounds h hfl hf.mem h.last_mem ?_ (by omega) fun hex => ?_
      · rw [hf.members_eq, d.elems_erase_first]
      · have := hex.1
        exact ⟨iff_of_true trivial (by omega), by omega⟩
  rw [if_neg hfirst]
  by_cases hlast : e = d.last
  · have hlt := h.lt_of_erase (.inr hlast) hne
    have hcard' := hcard _ (.inr rfl) hlast
    subst hlast
    rw [if_pos rfl]
    by_cases htwo : d.size = 2
    · rw [if_pos htwo]
      refine ⟨_, rfl, .assigned ?_ fun _ => trivial⟩
      rw [h.elems_of_card_le_two hlt (by omega), pair_comm, erase_insert (by simpa using hlt.ne')]
    · obtain ⟨l, hprev, hl, hfl⟩ := prevElm_eq h (show d.last - 1 ≤ d.last by omega) hlt
      rw [if_neg htwo]
      refine ⟨_, by simp only [hprev, bind, Except.bind, pure, Except.pure]; rfl, ?_⟩
      refine narrowed_bounds h hfl h.first_mem hl.mem ?_ (by omega) fun hex => ?_
      · rw [hl.members_eq, d.elems_erase_last]
      · have := hex.1
        exact ⟨iff_of_true trivial (by omega), by omega⟩
  rw [if_neg hlast]
  have hout : e ∉ d.elems := fun hmem => by
    have := (Dvar.mem_elems.1 hmem).1
    omega
  rw [erase_eq_of_notMem hout]
  exact ⟨d, rfl, .updated rfl rfl (.refl _) h rfl hsize fun hex => iff_of_true trivial hex⟩

end

/-! ## Restricting to a region -/

/-- The counts of a region fit the 32 bits of their counter: fewer than `2 ^ 31` elements lie strictly between a bound
and the new bound that replaces it. -/
def Dvar.CutFits (d : Dvar) (min max : ℤ) : Prop :=
  d.type ≠ .it → min < max → (d.first < min → min < d.last → (d.elems ∩ Finset.Ioo d.first min).card < 2 ^ 31) ∧
    (d.first < max → max < d.last → (d.elems ∩ Finset.Ioo max d.last).card < 2 ^ 31)

theorem bmod_le (c : ℕ) : (c : ℤ).bmod (2 ^ 32) ≤ c := by
  rw [Int.bmod_def]
  omega

theorem bmod_eq_iff (c : ℕ) : (c : ℤ).bmod (2 ^ 32) = c ↔ c < 2 ^ 31 := by
  rw [Int.bmod_def]
  omega

theorem Dvar.exists_bv (hd : d.type ≠ .it) : ∃ b, d.type = .bv b := by
  cases hd' : d.type with
  | it => contradiction
  | bv b => exact ⟨b, rfl⟩

theorem cutOff_spec (h : d.Shape) (hd : d.type ≠ .it) (hx : d.first ≤ x) (hy : y < d.last) :
    ∃ c : ℤ, cutOff d x y = .ok c ∧ c ≤ (members d.type.has x y).card ∧
      ((members d.type.has x y).card < 2 ^ 31 ↔ c = (members d.type.has x y).card) := by
  obtain ⟨b, hb⟩ := Dvar.exists_bv hd
  have hlow := h.low_le hb
  have hup := h.last_lt hb
  have hcall : callCountDomainElms d x y = .ok (((members d.type.has x y).card : ℤ).bmod (2 ^ 32)) := by
    unfold callCountDomainElms
    split_ifs with hxy
    · rw [members_of_lt hxy, card_empty, Nat.cast_zero, Int.zero_bmod]
      rfl
    · rw [countDomainElms_eq hb (hlow.trans hx) (by omega) (by omega), hb]
      rfl
  refine ⟨_, ?_, bmod_le _, (bmod_eq_iff _).symm⟩
  unfold cutOff
  split_ifs
  · exact hcall
  · exact hcall

theorem Dvar.elems_inter_Ioo (d : Dvar) (hx : d.first - 1 ≤ x) (hy : y ≤ d.last + 1) :
    d.elems ∩ Finset.Ioo x y = members d.type.has (x + 1) (y - 1) := by
  ext z
  simp only [mem_inter, Dvar.mem_elems, mem_Ioo, mem_members]
  constructor
  · intro h
    obtain ⟨⟨-, hm⟩, hz⟩ := h
    exact ⟨by omega, hm⟩
  · intro h
    obtain ⟨hz, hm⟩ := h
    exact ⟨⟨by omega, hm⟩, by omega⟩

section
variable (h : d.Shape)
include h

theorem Dvar.Shape.card_from (hf : d.first < f) (hfl : f ≤ d.last + 1) :
    d.elems.card = 1 + (members d.type.has (d.first + 1) (f - 1)).card + (members d.type.has f d.last).card := by
  rw [Dvar.elems, ← members_append hf.le hfl, card_members_cons (show d.first ≤ f - 1 by omega), h.first_mem]
  rfl

theorem Dvar.Shape.card_upto (ht : t < d.last) (hft : d.first ≤ t + 1) :
    d.elems.card = (members d.type.has d.first t).card + (members d.type.has (t + 1) (d.last - 1)).card + 1 := by
  have happ := members_append (p := d.type.has) hft (show t + 1 ≤ d.last + 1 by omega)
  rw [show t + 1 - 1 = t by ring, card_members_snoc (show t + 1 ≤ d.last by omega), h.last_mem] at happ
  simp only [Bool.toNat_true] at happ
  exact happ.symm.trans (by ring)

theorem Dvar.Shape.card_region (hf : d.first < f) (hft : f ≤ t + 1) (ht : t < d.last) :
    d.elems.card = 2 + (members d.type.has (d.first + 1) (f - 1)).card + (members d.type.has f t).card +
      (members d.type.has (t + 1) (d.last - 1)).card := by
  have happ := members_append (p := d.type.has) hft (show t + 1 ≤ d.last + 1 by omega)
  rw [h.card_from hf (by omega), ← happ, show t + 1 - 1 = t by ring,
    card_members_snoc (show t + 1 ≤ d.last by omega), h.last_mem, Bool.toNat_true]
  ring

section
variable (hsize : d.Enough)
include hsize

theorem callDomainRegionMin_narrowed (hf : d.first < f) (hS : S = members d.type.has f d.last) (hne : S.Nonempty)
    (hfits : fits ↔ (d.type ≠ .it → f < d.last → (members d.type.has (d.first + 1) (f - 1)).card < 2 ^ 31)) :
    ∃ d' f' t', callDomainRegionMin d d.first d.last f = .ok (d', f', t') ∧ Narrowed d S fits d' ∧
      ∀ x ∈ S, f' ≤ x ∧ x ≤ t' := by
  have hsize' : (d.elems.card : ℤ) ≤ d.size := hsize
  obtain ⟨v, hv⟩ := hne
  rw [hS, mem_members] at hv
  have hcard := h.card_from hf (by omega)
  have hlast : d.last ∈ S := by
    rw [hS, mem_members]
    exact ⟨⟨by omega, le_refl _⟩, h.last_mem⟩
  have hbounds : ∀ x ∈ S, f ≤ x ∧ x ≤ d.last := fun x hx => by
    rw [hS, mem_members] at hx
    exact hx.1
  unfold callDomainRegionMin
  by_cases hge : f ≥ d.last
  · have hfl : f = d.last := by omega
    rw [if_pos hge, if_neg (by omega)]
    refine ⟨_, _, _, rfl, .assigned (eq_singleton_iff_unique_mem.2 ⟨hfl ▸ hlast, fun x hx => ?_⟩)
      fun _ => hfits.2 fun _ => by omega, hbounds⟩
    have := hbounds x hx
    omega
  rw [if_neg hge]
  by_cases hd : d.type = .it
  · rw [if_pos hd]
    refine ⟨_, _, _, rfl, narrowed_bounds h (by omega) (by rw [hd]; rfl) h.last_mem hS.symm ?_
      fun _ => ⟨iff_of_true (hfits.2 fun hd' => absurd hd hd') ?_, by omega⟩, hbounds⟩
    all_goals
      rw [hS, members_true fun x _ _ => by rw [hd]; rfl, Int.card_Icc]
      omega
  rw [if_neg hd]
  obtain ⟨c, hcut, hle, hfit⟩ := cutOff_spec h hd (show d.first ≤ d.first + 1 by omega) (show f - 1 < d.last by omega)
  simp only [hcut, bind, Except.bind, pure, Except.pure]
  rw [← hS] at hcard
  have hexact : d.Exact → (fits ↔ d.size - c - 1 = S.card) := fun hx => by
    have hx1 := hx.1
    rw [hfits, show (d.type ≠ .it → f < d.last → (members d.type.has (d.first + 1) (f - 1)).card < 2 ^ 31) ↔ _ from
      ⟨fun hlow => hfit.1 (hlow hd (by omega)), fun hc _ _ => hfit.2 hc⟩]
    omega
  by_cases hone : d.size - c - 1 = 1
  · rw [if_pos hone]
    have hsingle : S = {d.last} := by
      symm
      exact eq_of_subset_of_card_le (singleton_subset_iff.2 hlast) (by rw [card_singleton]; omega)
    exact ⟨_, _, _, rfl, .assigned hsingle fun hx => (hexact hx).2 (by rw [hone, hsingle, card_singleton]; rfl),
      fun x hx => by rw [hsingle, mem_singleton] at hx; omega⟩
  · rw [if_neg hone]
    obtain ⟨b, hb⟩ := Dvar.exists_bv hd
    obtain ⟨e, he, hel⟩ := exists_nextIn h.last_mem (show f ≤ d.last by omega)
    simp only [domainNextBv_eq h hb hf.le (hb ▸ he)]
    refine ⟨_, _, _, rfl, narrowed_bounds h hel he.mem h.last_mem ?_ (by omega) fun hx => ⟨hexact hx, hone⟩,
      fun x hx => ?_⟩
    · rw [he.members_eq, hS]
    · rw [hS, ← he.members_eq, mem_members] at hx
      exact hx.1

theorem callDomainRegionMax_narrowed (ht : t < d.last) (hS : S = members d.type.has d.first t) (hne : S.Nonempty)
    (hfits : fits ↔ (d.type ≠ .it → d.first < t → (members d.type.has (t + 1) (d.last - 1)).card < 2 ^ 31)) :
    ∃ d' f' t', callDomainRegionMax d d.first d.last t = .ok (d', f', t') ∧ Narrowed d S fits d' ∧
      ∀ x ∈ S, f' ≤ x ∧ x ≤ t' := by
  have hsize' : (d.elems.card : ℤ) ≤ d.size := hsize
  obtain ⟨v, hv⟩ := hne
  rw [hS, mem_members] at hv
  have hcard := h.card_upto ht (by omega)
  have hfirst : d.first ∈ S := by
    rw [hS, mem_members]
    exact ⟨⟨le_refl _, by omega⟩, h.first_mem⟩
  have hbounds : ∀ x ∈ S, d.first ≤ x ∧ x ≤ t := fun x hx => by
    rw [hS, mem_members] at hx
    exact hx.1
  unfold callDomainRegionMax
  by_cases hle : t ≤ d.first
  · have htf : t = d.first := by omega
    rw [if_pos hle, if_neg (by omega)]
    refine ⟨_, _, _, rfl, .assigned (eq_singleton_iff_unique_mem.2 ⟨htf ▸ hfirst, fun x hx => ?_⟩)
      fun _ => hfits.2 fun _ => by omega, hbounds⟩
    have := hbounds x hx
    omega
  rw [if_neg hle]
  by_cases hd : d.type = .it
  · rw [if_pos hd]
    refine ⟨_, _, _, rfl, narrowed_bounds h (by omega) h.first_mem (by rw [hd]; rfl) hS.symm ?_
      fun _ => ⟨iff_of_true (hfits.2 fun hd' => absurd hd hd') ?_, by omega⟩, hbounds⟩
    all_goals
      rw [hS, members_true fun x _ _ => by rw [hd]; rfl, Int.card_Icc]
      omega
  rw [if_neg hd]
  obtain ⟨c, hcut, hcle, hfit⟩ := cutOff_spec h hd (show d.first ≤ t + 1 by omega) (show d.last - 1 < d.last by omega)
  simp only [hcut, bind, Except.bind, pure, Except.pure]
  rw [← hS] at hcard
  have hexact : d.Exact → (fits ↔ d.size - c - 1 = S.card) := fun hx => by
    have hx1 := hx.1
    rw [hfits, show (d.type ≠ .it → d.first < t → (members d.type.has (t + 1) (d.last - 1)).card < 2 ^ 31) ↔ _ from
      ⟨fun hhigh => hfit.1 (hhigh hd (by omega)), fun hc _ _ => hfit.2 hc⟩]
    omega
  by_cases hone : d.size - c - 1 = 1
  · rw [if_pos hone]
    have hsingle : S = {d.first} := by
      symm
      exact eq_of_subset_of_card_le (singleton_subset_iff.2 hfirst)
        (by rw [card_singleton]; omega)
    exact ⟨_, _, _, rfl, .assigned hsingle fun hx => (hexact hx).2 (by rw [hone, hsingle, card_singleton]; rfl),
      fun x hx => by rw [hsingle, mem_singleton] at hx; omega⟩
  · rw [if_neg hone]
    obtain ⟨b, hb⟩ := Dvar.exists_bv hd
    obtain ⟨e, he, hel⟩ := exists_prevIn h.first_mem (show d.first ≤ t by omega)
    simp only [domainPrevBv_eq h hb ht.le (hb ▸ he)]
    refine ⟨_, _, _, rfl, narrowed_bounds h hel h.first_mem he.mem ?_ (by omega) fun hx => ⟨hexact hx, hone⟩,
      fun x hx => ?_⟩
    · rw [he.members_eq, hS]
    · rw [hS, ← he.members_eq, mem_members] at hx
      exact hx.1

theorem callDomainRegionMinMax_narrowed
    (hf : d.first < f) (ht : t < d.last) (hS : S = members d.type.has f t) (hne : S.Nonempty)
    (hfits : fits ↔ (d.type ≠ .it → f < t → (members d.type.has (d.first + 1) (f - 1)).card < 2 ^ 31 ∧
      (members d.type.has (t + 1) (d.last - 1)).card < 2 ^ 31)) :
    ∃ d' f' t', callDomainRegionMinMax d d.first d.last f t = .ok (d', f', t') ∧ Narrowed d S fits d' ∧
      ∀ x ∈ S, f' ≤ x ∧ x ≤ t' := by
  have hsize' : (d.elems.card : ℤ) ≤ d.size := hsize
  obtain ⟨v, hvS⟩ := hne
  have hv := hvS
  rw [hS, mem_members] at hv
  have hbounds : ∀ x ∈ S, f ≤ x ∧ x ≤ t := fun x hx => by
    rw [hS, mem_members] at hx
    exact hx.1
  unfold callDomainRegionMinMax
  by_cases heq : f = t
  · have hvf : v = f := by omega
    have hsingle : S = {f} := eq_singleton_iff_unique_mem.2 ⟨hvf ▸ hvS, fun x hx => by
      have := hbounds x hx
      omega⟩
    rw [if_pos heq]
    have hdm : dmTrue d f = .ok true := by
      rw [dmTrue_eq h, decide_eq_true (Dvar.mem_elems.2 ⟨by omega, hvf ▸ hv.2⟩)]
    refine ⟨_, _, _, ?_, .assigned hsingle fun _ => hfits.2 fun _ hlt => by omega, hbounds⟩
    split_ifs with hd
    · rfl
    · simp only [hdm, bind, Except.bind, if_true]
      rfl
  rw [if_neg heq]
  by_cases hd : d.type = .it
  · rw [if_pos hd]
    refine ⟨_, _, _, rfl, narrowed_bounds h (by omega) (by rw [hd]; rfl) (by rw [hd]; rfl) hS.symm ?_
      fun _ => ⟨iff_of_true (hfits.2 fun hd' => absurd hd hd') ?_, by omega⟩, hbounds⟩
    all_goals
      rw [hS, members_true fun x _ _ => by rw [hd]; rfl, Int.card_Icc]
      omega
  rw [if_neg hd]
  have hcard := h.card_region hf (by omega) ht
  rw [← hS] at hcard
  obtain ⟨c, hcut, hcle, hfit⟩ := cutOff_spec h hd (show d.first ≤ d.first + 1 by omega) (show f - 1 < d.last by omega)
  obtain ⟨c', hcut', hcle', hfit'⟩ :=
    cutOff_spec h hd (show d.first ≤ t + 1 by omega) (show d.last - 1 < d.last by omega)
  simp only [hcut, hcut', bind, Except.bind, pure, Except.pure]
  have hpos : 0 < S.card := Finset.card_pos.2 ⟨v, hvS⟩
  have hexact : d.Exact → (fits ↔ d.size - (c + c') - 2 = S.card) := fun hx => by
    have hx1 := hx.1
    rw [hfits, show (d.type ≠ .it → f < t → (members d.type.has (d.first + 1) (f - 1)).card < 2 ^ 31 ∧
        (members d.type.has (t + 1) (d.last - 1)).card < 2 ^ 31) ↔ _ from
      ⟨fun hcut => (hcut hd (by omega)).imp hfit.1 hfit'.1, fun hc _ _ => hc.imp hfit.2 hfit'.2⟩]
    omega
  rw [if_neg (show ¬ d.size - (c + c') - 2 = 0 by omega)]
  obtain ⟨b, hb⟩ := Dvar.exists_bv hd
  obtain ⟨e, he, hev⟩ := exists_nextIn hv.2 hv.1.1
  obtain ⟨l, hl, hvl⟩ := exists_prevIn hv.2 hv.1.2
  have hmem : members d.type.has e l = S := by rw [hl.members_eq, he.members_eq, hS]
  simp only [domainNextBv_eq h hb hf.le (hb ▸ he), domainPrevBv_eq h hb ht.le (hb ▸ hl)]
  by_cases hone : d.size - (c + c') - 2 = 1
  · rw [if_pos hone]
    have hsingle : S = {e} := by
      symm
      refine eq_of_subset_of_card_le (singleton_subset_iff.2 ?_) (by rw [card_singleton]; omega)
      rw [← hmem, mem_members]
      exact ⟨⟨le_refl _, hev.trans hvl⟩, he.mem⟩
    exact ⟨_, _, _, rfl, .assigned hsingle fun hx => (hexact hx).2 (by rw [hone, hsingle, card_singleton]; rfl),
      fun x hx => by rw [hsingle, mem_singleton] at hx; omega⟩
  · rw [if_neg hone]
    refine ⟨_, _, _, rfl, narrowed_bounds h (hev.trans hvl) he.mem hl.mem hmem (by omega)
      fun hx => ⟨hexact hx, hone⟩, fun x hx => ?_⟩
    rw [← hmem, mem_members] at hx
    exact hx.1

/-- `CALL_DOMAIN_REGION` keeps what lies in the region, as long as something does; the bounds it returns enclose it. -/
theorem callDomainRegion_narrowed (hne : (d.elems ∩ Finset.Icc f t).Nonempty) :
    ∃ d' f' t', callDomainRegion d d.first d.last f t = .ok (d', f', t') ∧
      Narrowed d (d.elems ∩ Finset.Icc f t) (d.CutFits f t) d' ∧
      ∀ x ∈ d.elems ∩ Finset.Icc f t, f' ≤ x ∧ x ≤ t' := by
  obtain ⟨v, hv⟩ := id hne
  have hmem := mem_inter.1 hv
  have hvb := (Dvar.mem_elems.1 hmem.1).1
  have hvr := mem_Icc.1 hmem.2
  have hS := d.elems_inter_Icc f t
  unfold callDomainRegion
  rw [if_neg (show ¬ f > t by omega)]
  split_ifs with hf ht ht
  · rw [max_eq_right hf.le, min_eq_right ht.le] at hS
    apply callDomainRegionMinMax_narrowed h hsize hf ht hS hne
    rw [← d.elems_inter_Ioo (by omega) (by omega), ← d.elems_inter_Ioo (by omega) (by omega)]
    exact ⟨fun hx hd hft => ⟨(hx hd hft).1 hf (by omega), (hx hd hft).2 (by omega) ht⟩,
      fun hx hd hft => ⟨fun _ _ => (hx hd hft).1, fun _ _ => (hx hd hft).2⟩⟩
  · rw [max_eq_right hf.le, min_eq_left (not_lt.1 ht)] at hS
    apply callDomainRegionMin_narrowed h hsize hf hS hne
    rw [← d.elems_inter_Ioo (by omega) (by omega)]
    exact ⟨fun hx hd hfl => (hx hd (by omega)).1 hf hfl,
      fun hx hd _ => ⟨fun _ hfl => hx hd hfl, fun _ htl => absurd htl ht⟩⟩
  · rw [max_eq_left (not_lt.1 hf), min_eq_right ht.le] at hS
    apply callDomainRegionMax_narrowed h hsize ht hS hne
    rw [← d.elems_inter_Ioo (by omega) (by omega)]
    exact ⟨fun hx hd hfl => (hx hd (by omega)).2 hfl ht,
      fun hx hd _ => ⟨fun hff => absurd hff hf, fun hft _ => hx hd hft⟩⟩
  · rw [max_eq_left (not_lt.1 hf), min_eq_left (not_lt.1 ht)] at hS
    rw [hS]
    refine ⟨d, _, _, rfl, .updated rfl rfl (.refl _) h rfl hsize fun hx => iff_of_true ?_ hx, fun x hx => (mem_members.1 hx).1⟩
    exact fun _ _ => ⟨fun hff => absurd hff hf, fun _ htl => absurd htl ht⟩

theorem domainRegionNoint_narrowed (hne : (d.elems ∩ Finset.Icc f t).Nonempty) :
    ∃ d', domainRegionNoint d f t = .ok d' ∧ Narrowed d (d.elems ∩ Finset.Icc f t) (d.CutFits f t) d' := by
  obtain ⟨d', f', t', hcall, hd', -⟩ := callDomainRegion_narrowed h hsize hne
  refine ⟨d', ?_, hd'⟩
  simp only [domainRegionNoint, hcall, bind, Except.bind]
  rfl

end

end

/-- The counts of an interval exclusion fit: those of the region it calls, when it reaches a bound. -/
def Dvar.ExcludeFits (d : Dvar) (f t : ℤ) : Prop :=
  if f ≤ d.first then d.CutFits (t + 1) d.last else if t ≥ d.last then d.CutFits d.first (f - 1) else True

/-- `domain_exclude_interval_noint` takes the interval out, as long as something is left. -/
theorem domainExcludeIntervalNoint_narrowed (h : d.Shape) (hsize : d.Enough) (hft : f ≤ t)
    (hne : (d.elems \ Finset.Icc f t).Nonempty) :
    ∃ d', domainExcludeIntervalNoint d f t = .ok d' ∧ Narrowed d (d.elems \ Finset.Icc f t) (d.ExcludeFits f t) d' := by
  unfold domainExcludeIntervalNoint Dvar.ExcludeFits
  by_cases hf : f ≤ d.first
  · have hS : d.elems \ Finset.Icc f t = d.elems ∩ Finset.Icc (t + 1) d.last := by
      ext x
      simp only [mem_sdiff, mem_inter, mem_Icc, and_congr_right_iff]
      intro hx
      have := (Dvar.mem_elems.1 hx).1
      omega
    rw [hS] at hne ⊢
    rw [if_pos hf, if_pos hf]
    exact domainRegionNoint_narrowed h hsize hne
  rw [if_neg hf, if_neg hf]
  by_cases ht : t ≥ d.last
  · have hS : d.elems \ Finset.Icc f t = d.elems ∩ Finset.Icc d.first (f - 1) := by
      ext x
      simp only [mem_sdiff, mem_inter, mem_Icc, and_congr_right_iff]
      intro hx
      have := (Dvar.mem_elems.1 hx).1
      omega
    rw [hS] at hne ⊢
    rw [if_pos ht, if_pos ht]
    exact domainRegionNoint_narrowed h hsize hne
  rw [if_neg ht, if_neg ht]
  obtain ⟨d', hr, hd'⟩ := (inner_interval_removes h (not_le.1 hf) hft (not_le.1 ht)).narrowed h hsize (not_le.1 hf)
    (not_le.1 ht)
  exact ⟨d', hr, hd'⟩

end

end Picat
