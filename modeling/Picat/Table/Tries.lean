import Picat.Domain.Invariant
import Picat.Table.Build

/-!
# The tries record exactly the supports

The second pass of `b_CFD_BUILD_TRIES_IN`: the cells are laid out by the bounds of their supports and filled tuple by tuple.

* `bCfdBuildTriesIn_supports` : the cells denote the supports, and are free if and only if there is none.
-/

namespace Picat

open BitScan List

noncomputable def Support.denotes : Support → Finset ℤ
  | .absent => ∅
  | .int v => {v}
  | .var d => d.dom

/-- The cell of the value `k`; a value outside of the trie has none. -/
def trieCell (trie : List Support) (k : ℤ) : Support := if k < 0 then .absent else trie.getD k.toNat .absent

/-- A vector for supports from `mn` to `mx` that holds those of `S`. -/
structure Collects (d : Dvar) (mn mx : ℤ) (S : Finset ℤ) : Prop where
  free : d.var = .susp
  vector : ∃ b, d.type = .bv b ∧ b.Filled ∧ b.low ≤ mn ∧ mx ≤ b.up ∧ ∀ x, b.has x = true ↔ x ∈ S
  first : d.first = S.fold min mx id
  last : d.last = S.fold max mn id
  size : d.size = S.card

section
variable {d : Dvar} {mn mx v : ℤ} {S : Finset ℤ} {c : Support}

theorem newBvDomainVar_collects (hlt : mn ≤ mx) : Collects (newBvDomainVar mn mx mx mn 0 0) mn mx ∅ := by
  refine ⟨rfl, ⟨_, rfl, ?_, ?_, ?_, fun x => ?_⟩, rfl, rfl, rfl⟩
  · simp only [BitVector.Filled, length_replicate, wordNumber_eq]
    omega
  · simp only [wordNumber_eq]
    omega
  · simp only [wordNumber_eq]
    omega
  · have hzero := bitAt_replicate_zero (n := 64) (wordNumber mx - wordNumber mn + 1).toNat
      (x - wordNumber mn * 64).toNat
    simp only [BitVector.has, Bool.and_eq_true, Finset.notMem_empty, iff_false, not_and, Bool.not_eq_true]
    exact fun _ => hzero

theorem domainSetTrueBv_collects (h : Collects d mn mx S) (hv : mn ≤ v ∧ v ≤ mx) :
    ∃ d', domainSetTrueBv d v = .ok d' ∧ Collects d' mn mx (insert v S) := by
  obtain ⟨hfree, ⟨b, hb, hfill, hlow, hup, hhas⟩, hfirst, hlast, hsize⟩ := h
  have hfill' : b.up + 1 = b.low + 64 * b.words.length := hfill
  obtain ⟨w, wPtr, offset, hword, hget, ho, -, hx⟩ :=
    wordOffset_eq (b := b) (x := v) (by omega) (by omega)
  have hbit : b.has v = w.getLsbD offset := by
    rw [hx, ← bitAt_word hget ho, ← b.holds]
    push_cast
    ring_nf
  have hiff := and_one_shiftLeft_eq_zero (w := w) ho
  simp only [domainSetTrueBv, Dvar.bvPtr, hb, hword, bind, Except.bind]
  by_cases hset : w &&& 1#64 <<< offset ≠ 0
  · -- already on
    rw [if_pos hset]
    have hmem : v ∈ S := by
      rw [← hhas, hbit]
      exact Bool.not_eq_false _ ▸ fun hf => hset (hiff.2 hf)
    rw [Finset.insert_eq_of_mem hmem]
    exact ⟨d, rfl, hfree, ⟨b, hb, hfill, hlow, hup, hhas⟩, hfirst, hlast, hsize⟩
  · rw [if_neg hset]
    have hmem : v ∉ S := by
      rw [← hhas, hbit, hiff.1 (not_not.1 hset)]
      exact Bool.false_ne_true
    obtain ⟨hlt, -⟩ := List.getElem?_eq_some_iff.1 hget
    have hholds := Holds.insert b.holds hget ho
    rw [← hx] at hholds
    simp only [storeWord_eq hlt, pure, Except.pure]
    let b' : BitVector := { b with words := b.words.set wPtr (w ||| 1#64 <<< offset) }
    refine ⟨_, rfl, hfree, ⟨b', rfl, ?_, hlow, hup, fun x => ?_⟩, ?_, ?_, ?_⟩
    · rw [BitVector.Filled, length_set]
      exact hfill'
    · rw [Finset.mem_insert]
      by_cases hxlow : b'.low ≤ x
      · rw [BitVector.has_eq_of_holds (b := b') hholds hxlow, Bool.or_eq_true, decide_eq_true_eq, hhas, or_comm]
      · refine iff_of_false (fun hhas' => hxlow (b'.low_le hhas')) ?_
        rintro (rfl | hxS)
        · exact hxlow (hlow.trans hv.1)
        · exact hxlow (b.low_le ((hhas x).2 hxS))
    · simp only [extendBounds, hfirst]
      rw [Finset.fold_insert_idem, id, min_def]
      split_ifs <;> omega
    · simp only [extendBounds, hlast]
      rw [Finset.fold_insert_idem, id, max_def]
      split_ifs <;> omega
    · simp only [extendBounds, hsize, Finset.card_insert_of_notMem hmem]
      push_cast
      rfl

/-! ## Cells -/

/-- A cell for supports from `mn` to `mx` after those of `S` have been seen. -/
inductive CellOf (mn mx : ℤ) (S : Finset ℤ) : Support → Prop
  | absent (h : mn > mx) : CellOf mn mx S .absent
  | int (h : mn = mx) : CellOf mn mx S (.int mn)
  | pair (h : mn + 1 = mx) : CellOf mn mx S (.var (newItDomainVar mn mx))
  | var {d : Dvar} (h : mn + 1 < mx) (hd : Collects d mn mx S) : CellOf mn mx S (.var d)

theorem newSupport_cellOf (mn mx : ℤ) : CellOf mn mx ∅ (newSupport .absent mn mx) := by
  unfold newSupport
  split_ifs with h1 h2 h3
  · exact .absent h1
  · exact .int h2
  · exact .pair h3
  · exact .var (by omega) (newBvDomainVar_collects (by omega))

theorem addSupport_cellOf (h : CellOf mn mx S c) (hv : mn ≤ v ∧ v ≤ mx) :
    ∃ c', addSupport c v = .ok c' ∧ CellOf mn mx (insert v S) c' := by
  cases h with
  | absent h => omega
  | int h => exact ⟨_, rfl, .int h⟩
  | pair h => exact ⟨_, by simp only [addSupport, newItDomainVar, if_true], .pair h⟩
  | var hlt hd =>
    obtain ⟨b, hb, -⟩ := hd.vector
    obtain ⟨d', hd', hcol⟩ := domainSetTrueBv_collects hd hv
    refine ⟨_, ?_, .var hlt hcol⟩
    simp only [addSupport, hb, reduceCtorEq, if_false, hd', bind, Except.bind]
    rfl

theorem minOf_le (hv : v ∈ S) : minOf S ≤ v := (Finset.fold_min_le v).2 (.inr ⟨v, hv, le_refl v⟩)

theorem le_maxOf (hv : v ∈ S) : v ≤ maxOf S := (Finset.le_fold_max v).2 (.inr ⟨v, hv, le_refl v⟩)

theorem minOf_mem (hne : S.Nonempty) (hword : ∀ v ∈ S, v ≤ bpMaxint1W) : minOf S ∈ S := by
  have heq : minOf S = S.min' hne := by
    apply le_antisymm (minOf_le (S.min'_mem hne))
    exact (Finset.le_fold_min _).2 ⟨hword _ (S.min'_mem hne), fun x hx => S.min'_le x hx⟩
  rw [heq]
  exact S.min'_mem hne

theorem maxOf_mem (hne : S.Nonempty) (hword : ∀ v ∈ S, bpMinint1W ≤ v) : maxOf S ∈ S := by
  have heq : maxOf S = S.max' hne := by
    refine le_antisymm ?_ (le_maxOf (S.max'_mem hne))
    exact (Finset.fold_max_le _).2 ⟨hword _ (S.max'_mem hne), fun x hx => S.le_max' x hx⟩
  rw [heq]
  exact S.max'_mem hne

theorem Collects.inv (h : Collects d mn mx S) (hlt : mn < mx) (hmn : mn ∈ S) (hmx : mx ∈ S)
    (hS : ∀ v ∈ S, mn ≤ v ∧ v ≤ mx) : d.Inv ∧ d.dom = S := by
  obtain ⟨hfree, ⟨b, hb, hfill, hlow, hup, hhas⟩, hfirst, hlast, hsize⟩ := h
  have hf : d.first = mn := by
    rw [hfirst]
    exact le_antisymm ((Finset.fold_min_le mn).2 (.inr ⟨mn, hmn, le_refl mn⟩))
      ((Finset.le_fold_min mn).2 ⟨hlt.le, fun v hv => (hS v hv).1⟩)
  have hl : d.last = mx := by
    rw [hlast]
    exact le_antisymm ((Finset.fold_max_le mx).2 ⟨hlt.le, fun v hv => (hS v hv).2⟩)
      ((Finset.le_fold_max mx).2 (.inr ⟨mx, hmx, le_refl mx⟩))
  have helems : d.elems = S := by
    ext v
    rw [Dvar.mem_elems, hb, DvType.has_bv, hhas, hf, hl]
    exact ⟨fun hv => hv.2, fun hv => ⟨hS v hv, hv⟩⟩
  have hshape : d.Shape := by
    refine ⟨by omega, ?_, ?_, fun b' hb' => ?_⟩
    · rw [hb, hf]
      exact (hhas mn).2 hmn
    · rw [hb, hl]
      exact (hhas mx).2 hmx
    · rw [hb] at hb'
      rwa [← DvType.bv.inj hb']
  refine ⟨⟨hshape.repInv (by rw [helems, hsize]), hshape.le, fun _ => by omega, fun p hp => ?_⟩, ?_⟩
  · rw [hfree] at hp
    contradiction
  · rw [Dvar.dom_susp hfree, helems]

theorem CellOf.denotes (h : CellOf (minOf S) (maxOf S) S c) (hword : ∀ v ∈ S, bpMinint1W ≤ v ∧ v ≤ bpMaxint1W) :
    c.denotes = S ∧ (c = .absent ↔ S = ∅) ∧ ∀ d, c = .var d → d.Inv ∧ d.var = .susp := by
  have hmn : S.Nonempty → minOf S ∈ S := fun hne => minOf_mem hne fun v hv => (hword v hv).2
  have hmx : S.Nonempty → maxOf S ∈ S := fun hne => maxOf_mem hne fun v hv => (hword v hv).1
  have hbounds : ∀ v ∈ S, minOf S ≤ v ∧ v ≤ maxOf S := fun v hv => ⟨minOf_le hv, le_maxOf hv⟩
  -- the bounds of no supports are far apart the wrong way
  have hempty : minOf S ≤ maxOf S → S.Nonempty := by
    intro hle
    by_contra hne
    rw [Finset.not_nonempty_iff_eq_empty] at hne
    rw [hne] at hle
    exact absurd hle (by decide)
  cases h with
  | absent h =>
    have hS : S = ∅ := by
      rw [← Finset.not_nonempty_iff_eq_empty]
      intro hne
      have := hbounds _ (hmn hne)
      omega
    exact ⟨hS.symm, iff_of_true rfl hS, fun d hd => by contradiction⟩
  | int h =>
    have hne := hempty h.le
    have hS : S = {minOf S} := Finset.eq_singleton_iff_unique_mem.2 ⟨hmn hne, fun v hv => by
      have := hbounds v hv
      omega⟩
    exact ⟨hS.symm, iff_of_false (by simp) hne.ne_empty, fun d hd => by contradiction⟩
  | pair h =>
    have hne := hempty (by omega)
    have hinv : (auxCreateDomainVar (minOf S) (maxOf S)).Inv := auxCreateDomainVar_inv (by omega)
    have hS : (Support.var (newItDomainVar (minOf S) (maxOf S))).denotes = S := by
      apply (auxCreateDomainVar_elems _ _).trans
      ext v
      rw [Finset.mem_Icc]
      refine ⟨fun hv => ?_, hbounds v⟩
      rcases (show v = minOf S ∨ v = maxOf S by omega) with rfl | rfl
      · exact hmn hne
      · exact hmx hne
    refine ⟨hS, iff_of_false (by simp) hne.ne_empty, fun d hd => ?_⟩
    rw [← Support.var.inj hd]
    exact ⟨hinv, rfl⟩
  | var hlt hd =>
    have hne := hempty (by omega)
    obtain ⟨hinv, hdom⟩ := hd.inv (by omega) (hmn hne) (hmx hne) hbounds
    refine ⟨hdom, iff_of_false (by simp) hne.ne_empty, fun d' hd' => ?_⟩
    rw [← Support.var.inj hd']
    exact ⟨hinv, hd.free⟩

end

/-! ## The passes over the tries -/

section
variable {n i j : ℕ} {k : ℤ} {maxs t : List ℤ} {tries : Tries} {tuples done : List (List ℤ)}

/-- Every pair of positions has a trie with a cell for each value up to the maximum. -/
def TriesShape (maxs : List ℤ) (tries : Tries) : Prop :=
  ∀ i < maxs.length, ∀ j < maxs.length, i ≠ j → (tries i j).length = (maxs.getD i (-1) + 1).toNat

/-- The values at `i` that have a cell. -/
def InTrie (maxs : List ℤ) (i : ℕ) (k : ℤ) : Prop := 0 ≤ k ∧ k ≤ maxs.getD i (-1)

theorem trieCell_eq {trie : List Support} (hk : 0 ≤ k) : trieCell trie k = trie.getD k.toNat .absent :=
  if_neg (by omega)

theorem setTrie_spec (hs : TriesShape maxs tries) (hi : i < maxs.length) (hj : j < maxs.length) (hij : i ≠ j)
    (hk : InTrie maxs i k) (c : Support) :
    readCell (tries i j) k = .ok (trieCell (tries i j) k) ∧
    ∃ trie, writeCell (tries i j) k c = .ok trie ∧ TriesShape maxs (setTrie tries i j trie) ∧
      ∀ i' j' k', 0 ≤ k' → trieCell (setTrie tries i j trie i' j') k' =
        if i' = i ∧ j' = j ∧ k' = k then c else trieCell (tries i' j') k' := by
  obtain ⟨hk0, hkm⟩ := hk
  have hlen := hs i hi j hj hij
  have hlt : k < (tries i j).length := by omega
  refine ⟨by rw [readCell_eq hk0 hlt .absent, trieCell_eq hk0], _, writeCell_eq hk0 hlt c, fun i' hi' j' hj' hne => ?_,
    fun i' j' k' hk' => ?_⟩
  · unfold setTrie
    split_ifs with heq
    · rw [length_set, hlen, heq.1]
    · exact hs i' hi' j' hj' hne
  · unfold setTrie
    rw [trieCell_eq hk', trieCell_eq hk']
    by_cases hp : i' = i ∧ j' = j
    · rw [if_pos hp, getD_set (by omega), hp.1, hp.2]
      simp only [true_and, show k'.toNat = k.toNat ↔ k' = k by omega]
    · rw [if_neg hp, if_neg fun h => hp ⟨h.1, h.2.1⟩]

/-- The cells of a pair, for the supports in `tuples` and those seen in `done`. -/
def PairCells (maxs : List ℤ) (tuples done : List (List ℤ)) (i j : ℕ) (tries : Tries) : Prop :=
  ∀ k, InTrie maxs i k →
    CellOf (minOf (supports tuples i j k)) (maxOf (supports tuples i j k)) (supports done i j k) (trieCell (tries i j) k)

theorem mem_initializePairs {p : Σ _ : ℕ, Σ _ : ℕ, ℕ} :
    (p ∈ (List.range n).sigma fun i => (List.range (maxs.getD i (-1) + 1).toNat).sigma fun _ =>
      (List.range n).filter fun j => i ≠ j) ↔
    p.1 < n ∧ p.2.1 < (maxs.getD p.1 (-1) + 1).toNat ∧ p.2.2 < n ∧ p.1 ≠ p.2.2 := by
  obtain ⟨i, k, j⟩ := p
  simp only [mem_sigma, mem_range, mem_filter, decide_eq_true_eq]

theorem initializeSupports_spec {nk : ℕ} {arrays : List ℤ × List ℤ} (hs : Sized maxs.length nk arrays)
    (hb : ∀ i < maxs.length, ∀ j < maxs.length, i ≠ j → BoundsOf maxs.length nk tuples i j arrays)
    (hnk : ∀ i < maxs.length, maxs.getD i (-1) < nk) :
    ∃ tries, initializeSupports maxs.length nk maxs arrays (freshTries maxs) = .ok tries ∧ TriesShape maxs tries ∧
      ∀ i < maxs.length, ∀ j < maxs.length, i ≠ j → PairCells maxs tuples [] i j tries := by
  have hrun := Loops.exists_foldlM_each (initializeSupport maxs.length nk arrays)
    (TriesShape maxs) (fun p tries => trieCell (tries p.1 p.2.2) p.2.1 = .absent)
    (fun p tries => CellOf (minOf (supports tuples p.1 p.2.2 p.2.1)) (maxOf (supports tuples p.1 p.2.2 p.2.1)) ∅
      (trieCell (tries p.1 p.2.2) p.2.1))
    ((List.range maxs.length).sigma fun i => (List.range (maxs.getD i (-1) + 1).toNat).sigma fun _ =>
      (List.range maxs.length).filter fun j => i ≠ j)
    (nodup_range.sigma fun _ => nodup_range.sigma fun _ => nodup_range.filter _) (freshTries maxs)
    (fun i _ j _ _ => by simp only [freshTries, length_replicate]) (fun p _ => by
      rw [trieCell_eq (by omega), freshTries, getD_eq_getElem?_getD, List.getElem?_replicate]
      split_ifs <;> rfl) ?_
  · obtain ⟨tries, hrun, hshape, hcells⟩ := hrun
    refine ⟨tries, hrun, hshape, fun i hi j hj hij k ⟨hk, hkm⟩ => ?_⟩
    have hmem := hcells ⟨i, k.toNat, j⟩ (mem_initializePairs.2 ⟨hi, by simp only; omega, hj, hij⟩)
    simpa only [Int.toNat_of_nonneg hk, supports_nil] using hmem
  · rintro ⟨i, k, j⟩ hp tries hshape hfree
    obtain ⟨hi, hk, hj, hij⟩ := mem_initializePairs.1 hp
    simp only at hi hk hj hij hfree
    have hkn := hnk i hi
    have hbounds : A3Bounds maxs.length nk i j (k : ℤ) := ⟨hi, hj, by omega, by omega⟩
    obtain ⟨hmin, hmax⟩ := hb i hi j hj hij k (by omega) (by omega)
    obtain ⟨hread, trie, hwrite, hshape', hcell⟩ := setTrie_spec hshape hi hj hij (k := (k : ℤ)) ⟨by omega, by omega⟩
      (newSupport (trieCell (tries i j) k) (minOf (supports tuples i j k)) (maxOf (supports tuples i j k)))
    refine ⟨setTrie tries i j trie, ?_, hshape', ?_, ?_⟩
    · simp only [initializeSupport, a3Get_eq hs.1 hbounds, a3Get_eq hs.2 hbounds, hmin, hmax, hread, hwrite, bind,
        Except.bind]
    · simp only [hcell i j k (by omega), and_self, if_true, hfree]
      exact newSupport_cellOf _ _
    · rintro ⟨i', k', j'⟩ - hne
      have hdiff : ¬ (i' = i ∧ j' = j ∧ (k' : ℤ) = k) := by
        intro h
        obtain ⟨rfl, rfl, hk'⟩ := h
        obtain rfl : k' = k := by omega
        exact hne rfl
      simp only [hcell i' j' k' (by omega), if_neg hdiff]
      exact ⟨id, id⟩

theorem computeSupport_spec (hs : TriesShape maxs tries) (ht : Fits maxs.length nk t) (hi : i < maxs.length)
    (hj : j < maxs.length) (hij : i ≠ j) (hmax : t.getD i 0 ≤ maxs.getD i (-1)) (hmem : t ∈ tuples)
    (hcells : PairCells maxs tuples done i j tries) :
    ∃ tries', computeSupport (t.take maxs.length) tries ⟨i, j⟩ = .ok tries' ∧ TriesShape maxs tries' ∧
      PairCells maxs tuples (done ++ [t]) i j tries' ∧
      ∀ i' j', ¬ (i' = i ∧ j' = j) → ∀ k, 0 ≤ k → trieCell (tries' i' j') k = trieCell (tries i' j') k := by
  have hk : InTrie maxs i (t.getD i 0) := ⟨(ht.2 i hi).1, hmax⟩
  have hsup : t.getD j 0 ∈ supports tuples i j (t.getD i 0) := mem_supports.2 ⟨t, hmem, rfl, rfl⟩
  obtain ⟨c, hc, hcell⟩ := addSupport_cellOf (hcells _ hk) ⟨minOf_le hsup, le_maxOf hsup⟩
  obtain ⟨hread, trie, hwrite, hshape, hset⟩ := setTrie_spec hs hi hj hij hk c
  refine ⟨setTrie tries i j trie, ?_, hshape, fun k hk' => ?_, fun i' j' hne k hk' => ?_⟩
  · simp only [computeSupport, ht.readStack hi, ht.readStack hj, hread, hc, hwrite, bind, Except.bind]
    rfl
  · rw [hset i j k hk'.1, supports_append]
    by_cases hkt : t.getD i 0 = k
    · subst hkt
      simpa only [and_self, if_true] using hcell
    · rw [if_neg hkt, if_neg fun h => hkt h.2.2.symm]
      exact hcells k hk'
  · rw [hset i' j' k hk', if_neg fun h => hne ⟨h.1, h.2.1⟩]

theorem computeSupport_loop {nk : ℕ} (hs : TriesShape maxs tries) (ht : Fits maxs.length nk t)
    (hmax : ∀ i < maxs.length, t.getD i 0 ≤ maxs.getD i (-1)) (hmem : t ∈ tuples)
    (hcells : ∀ p ∈ otherPairs maxs.length, PairCells maxs tuples done p.1 p.2 tries) :
    ∃ tries', (otherPairs maxs.length).foldlM (computeSupport (t.take maxs.length)) tries = .ok tries' ∧
      TriesShape maxs tries' ∧ ∀ p ∈ otherPairs maxs.length, PairCells maxs tuples (done ++ [t]) p.1 p.2 tries' := by
  refine Loops.exists_foldlM_each (computeSupport (t.take maxs.length)) (TriesShape maxs)
    (fun p tries => PairCells maxs tuples done p.1 p.2 tries)
    (fun p tries => PairCells maxs tuples (done ++ [t]) p.1 p.2 tries) _ (nodup_otherPairs _) tries hs hcells ?_
  rintro ⟨i, j⟩ hp tries hs hcells
  obtain ⟨hi, hj, hij⟩ := mem_otherPairs.1 hp
  obtain ⟨tries', hrun, hs', hcells', hrest⟩ := computeSupport_spec hs ht hi hj hij (hmax i hi) hmem hcells
  refine ⟨tries', hrun, hs', hcells', fun p _ hne => ?_⟩
  have hdiff : ¬ (p.1 = i ∧ p.2 = j) := by
    obtain ⟨i', j'⟩ := p
    intro hboth
    obtain ⟨rfl, rfl⟩ := hboth
    exact hne rfl
  refine ⟨fun h k hk => ?_, fun h k hk => ?_⟩
  · rw [hrest _ _ hdiff k hk.1]
    exact h k hk
  · rw [hrest _ _ hdiff k hk.1]
    exact h k hk

theorem computeSupportsIn_spec {nk : ℕ} (hs : TriesShape maxs tries) (ht : ∀ t ∈ tuples, Fits maxs.length nk t)
    (hmax : ∀ t ∈ tuples, ∀ i < maxs.length, t.getD i 0 ≤ maxs.getD i (-1))
    (hcells : ∀ p ∈ otherPairs maxs.length, PairCells maxs tuples [] p.1 p.2 tries) :
    ∃ tries', computeSupportsIn maxs.length tuples tries = .ok tries' ∧ TriesShape maxs tries' ∧
      ∀ p ∈ otherPairs maxs.length, PairCells maxs tuples tuples p.1 p.2 tries' := by
  refine Loops.exists_foldlM
    (fun tries tuple => do
      let stack ← reuseStack maxs.length tuple
      (otherPairs maxs.length).foldlM (computeSupport stack) tries)
    (fun done tries => TriesShape maxs tries ∧
      ∀ p ∈ otherPairs maxs.length, PairCells maxs tuples done p.1 p.2 tries) tuples tries ⟨hs, hcells⟩
    fun done t rest hl tries ⟨hs, hcells⟩ => ?_
  have hmem : t ∈ tuples := by simp [hl]
  simp only [(ht t hmem).reuseStack, bind, Except.bind]
  exact computeSupport_loop hs (ht t hmem) (hmax t hmem) hmem hcells

theorem le_largestValue {e : ℤ} (h : e ∈ maxs) : e < largestValue maxs := by
  have hfold : ∀ (l : List ℤ) (b : ℤ), b ≤ l.foldl max b ∧ ∀ e ∈ l, e ≤ l.foldl max b := by
    intro l
    induction l with
    | nil => exact fun b => ⟨le_refl b, fun e he => by simp at he⟩
    | cons a l ih =>
      intro b
      obtain ⟨h1, h2⟩ := ih (max b a)
      refine ⟨(le_max_left b a).trans h1, fun e he => ?_⟩
      rcases mem_cons.1 he with rfl | he
      · exact (le_max_right b e).trans h1
      · exact h2 e he
  have h0 := (hfold maxs 0).1
  have he := (hfold maxs 0).2 e h
  unfold largestValue
  omega

end

theorem bCfdBuildTriesIn_shape (garbage : ℕ → ℤ) (maxs : List ℤ) (tuples : List (List ℤ)) (h : TuplesOk maxs tuples) :
    ∃ tries, bCfdBuildTriesIn garbage maxs tuples (freshTries maxs) = .ok tries ∧ TriesShape maxs tries ∧
      ∀ i < maxs.length, ∀ j < maxs.length, i ≠ j → ∀ k : ℤ, (trieCell (tries i j) k).denotes = supports tuples i j k ∧
        (trieCell (tries i j) k = .absent ↔ supports tuples i j k = ∅) ∧
        ∀ d, trieCell (tries i j) k = .var d → d.Inv ∧ d.var = .susp := by
  have hnk : ∀ i < maxs.length, maxs.getD i (-1) < largestValue maxs := fun i hi => by
    rw [getD_eq_getElem _ _ hi]
    exact le_largestValue (getElem_mem hi)
  have hfit : ∀ t ∈ tuples, Fits maxs.length (largestValue maxs) t := fun t ht =>
    ⟨h.length_le t ht, fun i hi => ⟨h.nonneg t ht i hi, (h.le_max t ht i hi).trans_lt (hnk i hi)⟩⟩
  have hs₀ : Sized maxs.length (largestValue maxs)
      ((List.range (maxs.length * maxs.length * largestValue maxs)).map garbage,
        (List.range (maxs.length * maxs.length * largestValue maxs)).map fun x =>
          garbage (maxs.length * maxs.length * largestValue maxs + x)) :=
    ⟨by rw [length_map, length_range], by rw [length_map, length_range]⟩
  obtain ⟨arrays₁, hrun₁, hs₁, hb₁⟩ := initializeMinMaxArrays_spec hs₀
  obtain ⟨arrays₂, hrun₂, hs₂, hb₂⟩ := computeMinsMaxsIn_spec hs₁ hfit hb₁
  obtain ⟨tries₁, hrun₃, hs₃, hcells₁⟩ := initializeSupports_spec hs₂ hb₂ hnk
  obtain ⟨tries₂, hrun₄, hs₄, hcells₂⟩ := computeSupportsIn_spec hs₃ hfit h.le_max fun p hp => by
    obtain ⟨hi, hj, hij⟩ := mem_otherPairs.1 hp
    exact hcells₁ p.1 hi p.2 hj hij
  refine ⟨tries₂, by simp only [bCfdBuildTriesIn, hrun₁, hrun₂, hrun₃, hrun₄, bind, Except.bind], hs₄,
    fun i hi j hj hij k => ?_⟩
  by_cases hk : InTrie maxs i k
  · apply (hcells₂ ⟨i, j⟩ (mem_otherPairs.2 ⟨hi, hj, hij⟩) k hk).denotes
    intro v hv
    obtain ⟨t, ht, -, rfl⟩ := mem_supports.1 hv
    have h1 := h.nonneg t ht j hj
    have h2 := h.le_max t ht j hj
    have h3 := h.word (maxs.getD j (-1)) (by rw [getD_eq_getElem _ _ hj]; exact getElem_mem hj)
    exact ⟨le_trans (by decide) h1, h2.trans h3⟩
  · -- a value without a cell has no supports
    have habsent : trieCell (tries₂ i j) k = .absent := by
      unfold trieCell
      split_ifs with h0
      · rfl
      · have hlen := hs₄ i hi j hj hij
        have hkm : maxs.getD i (-1) < k := not_le.1 fun hle => hk ⟨not_lt.1 h0, hle⟩
        rw [getD_eq_getElem?_getD, List.getElem?_eq_none (by omega)]
        rfl
    have hempty : supports tuples i j k = ∅ := by
      rw [Finset.eq_empty_iff_forall_notMem]
      intro v hv
      obtain ⟨t, ht, rfl, -⟩ := mem_supports.1 hv
      exact hk ⟨h.nonneg t ht i hi, h.le_max t ht i hi⟩
    rw [habsent, hempty]
    exact ⟨rfl, iff_of_true rfl rfl, fun d hd => by contradiction⟩

/-- The tries that `b_CFD_BUILD_TRIES_IN` builds record exactly the supports: the cell at `i`, `j` of a value `k` stands for
the values at `j` of the tuples with `k` at `i`, and is free if and only if there are none. -/
theorem bCfdBuildTriesIn_supports (garbage : ℕ → ℤ) (maxs : List ℤ) (tuples : List (List ℤ)) (h : TuplesOk maxs tuples) :
    ∃ tries, bCfdBuildTriesIn garbage maxs tuples (freshTries maxs) = .ok tries ∧
      ∀ i < maxs.length, ∀ j < maxs.length, i ≠ j → ∀ k : ℤ, (trieCell (tries i j) k).denotes = supports tuples i j k ∧
        (trieCell (tries i j) k = .absent ↔ supports tuples i j k = ∅) ∧
        ∀ d, trieCell (tries i j) k = .var d → d.Inv ∧ d.var = .susp := by
  obtain ⟨tries, hrun, -, hcells⟩ := bCfdBuildTriesIn_shape garbage maxs tuples h
  exact ⟨tries, hrun, hcells⟩

theorem bCfdBuildTriesIn_three :
    ∃ tries, bCfdBuildTriesIn (fun _ => 7) [1, 2] [[0, 0], [0, 2], [1, 1]] (freshTries [1, 2]) = .ok tries ∧
      ∀ i < 2, ∀ j < 2, i ≠ j → ∀ k : ℤ, (trieCell (tries i j) k).denotes = supports [[0, 0], [0, 2], [1, 1]] i j k ∧
        (trieCell (tries i j) k = .absent ↔ supports [[0, 0], [0, 2], [1, 1]] i j k = ∅) ∧
        ∀ d, trieCell (tries i j) k = .var d → d.Inv ∧ d.var = .susp :=
  bCfdBuildTriesIn_supports (fun _ => 7) [1, 2] [[0, 0], [0, 2], [1, 1]]
    ⟨by decide, by decide, by decide, by decide⟩

/-! # The tries of a negative table constraint -/

/-! ## The hash table -/

/-- `HTABLE_HCODE`. The constant is `MULTIPLIER`, the last operation `& HASH_BITS`. -/
def htableHcode : List ℤ → ℤ
  | [] => 0
  | a :: as => as.foldl (fun hcode op => bplong (hcode + 37 * op + 1)) a % 2 ^ 28

abbrev HTable := List (List (List ℤ))

/-- The search in a chain: the first `arity` arguments are compared. -/
def chainContains (arity : ℕ) (tuple : List ℤ) : List (List ℤ) → Bool
  | [] => false
  | another :: lst => if another.take arity = tuple.take arity then true else chainContains arity tuple lst

def htableContainsTuple (htable : HTable) (tuple : List ℤ) (arity : ℕ) : Bool :=
  chainContains arity tuple (htable.getD (htableHcode (tuple.take arity) % htable.length).toNat [])

/-- A table of tuples of one arity that were put into the bucket of their hash code. -/
structure HTable.Placed (htable : HTable) (arity : ℕ) : Prop where
  arity : ∀ chain ∈ htable, ∀ t ∈ chain, t.length = arity
  bucket : ∀ i, ∀ t ∈ htable.getD i [], (htableHcode t % htable.length).toNat = i

def HTable.Has (htable : HTable) (t : List ℤ) : Prop := ∃ chain ∈ htable, t ∈ chain

/-! ## The product of the domains -/

/-- A variable of the constraint: an integer or a domain variable. -/
inductive CompVar where
  | int (v : ℤ)
  | var (d : Dvar)

/-- `CompVarMaxArray[i]` -/
def CompVar.max : CompVar → ℤ
  | int v => v
  | var d => d.last

/-- The recursion of `compute_mins_maxs_notin` and `compute_supports_notin`, with what they do with a tuple, whose values
before `arg_no` are in `tuple`. -/
def notinWalk {σ : Type} (htable : HTable) (visit : List ℤ → σ → Except Stop σ) :
    List CompVar → List ℤ → σ → Except Stop σ
  | [], tuple, s => if htableContainsTuple htable tuple tuple.length then .ok s else visit tuple s
  | .int v :: compVars, tuple, s => notinWalk htable visit compVars (tuple ++ [v]) s
  | .var d :: compVars, tuple, s =>
    domainLoop d (fun e s => notinWalk htable visit compVars (tuple ++ [e]) s) ((d.last - d.first).toNat + 1) d.first s

def computeMinsMaxsNotin (n nk : ℕ) (htable : HTable) (compVars : List CompVar) (arrays : List ℤ × List ℤ) :
    Except Stop (List ℤ × List ℤ) :=
  notinWalk htable (fun tuple arrays => do
    let stack ← reuseStack n tuple
    (upperPairs n).foldlM (computeMinMax n nk stack) arrays) compVars [] arrays

def computeSupportsNotin (n : ℕ) (htable : HTable) (compVars : List CompVar) (tries : Tries) : Except Stop Tries :=
  notinWalk htable (fun tuple tries => do
    let stack ← reuseStack n tuple
    (otherPairs n).foldlM (computeSupport stack) tries) compVars [] tries

/-- `b_CFD_BUILD_TRIES_NOTIN`. The one word that its arrays have more than those of `b_CFD_BUILD_TRIES_IN` is left out. -/
def bCfdBuildTriesNotin (garbage : ℕ → ℤ) (compVars : List CompVar) (htable : HTable) (tries : Tries) :
    Except Stop Tries := do
  let n := compVars.length
  let maxs := compVars.map CompVar.max
  let nk := largestValue maxs
  let arraySize := n * n * nk
  let minArray := (List.range arraySize).map garbage
  let maxArray := (List.range arraySize).map fun x => garbage (arraySize + x)
  let arrays ← initializeMinMaxArrays n nk (minArray, maxArray)
  let arrays ← computeMinsMaxsNotin n nk htable compVars arrays
  let tries ← initializeSupports n nk maxs arrays tries
  computeSupportsNotin n htable compVars tries

theorem chainContains_iff {arity : ℕ} {tuple : List ℤ} {lst : List (List ℤ)} (htuple : tuple.length = arity)
    (hlst : ∀ t ∈ lst, t.length = arity) : chainContains arity tuple lst = true ↔ tuple ∈ lst := by
  induction lst with
  | nil => simp [chainContains]
  | cons another lst ih =>
    obtain ⟨hanother, hlst⟩ := forall_mem_cons.1 hlst
    rw [chainContains, take_of_length_le hanother.le, take_of_length_le htuple.le, mem_cons]
    split_ifs with h
    · exact iff_of_true rfl (.inl h.symm)
    · rw [ih hlst, or_iff_right (Ne.symm h)]

theorem htableContainsTuple_iff {htable : HTable} {t : List ℤ} (h : htable.Placed t.length) :
    htableContainsTuple htable t t.length = true ↔ htable.Has t := by
  have hchain : ∀ i, ∀ u ∈ htable.getD i [], u.length = t.length ∧ htable.Has u := by
    intro i u hu
    by_cases hi : i < htable.length
    · rw [getD_eq_getElem _ _ hi] at hu
      have hmem := getElem_mem hi
      exact ⟨h.arity _ hmem u hu, _, hmem, hu⟩
    · simp [getD_eq_getElem?_getD, List.getElem?_eq_none (not_lt.1 hi)] at hu
  rw [htableContainsTuple, take_length, chainContains_iff rfl fun u hu => (hchain _ u hu).1]
  constructor
  · exact fun hmem => (hchain _ t hmem).2
  · rintro ⟨chain, hmem, ht⟩
    obtain ⟨i, hi, rfl⟩ := getElem_of_mem hmem
    rw [← getD_eq_getElem _ [] hi] at ht
    rwa [h.bucket i t ht]

/-! ## The walk -/

def CompVar.Ok : CompVar → Prop
  | int v => 0 ≤ v ∧ v ≤ bpMaxint1W
  | var d => d.Shape ∧ 0 ≤ d.first ∧ d.last ≤ bpMaxint1W

def CompVar.Can : CompVar → ℤ → Prop
  | int v, x => x = v
  | var d, x => x ∈ d.elems

def InProduct (compVars : List CompVar) (t : List ℤ) : Prop := List.Forall₂ CompVar.Can compVars t

def visitUnless {σ : Type} (htable : HTable) (visit : List ℤ → σ → Except Stop σ) (s : σ) (tuple : List ℤ) :
    Except Stop σ :=
  if htableContainsTuple htable tuple tuple.length then .ok s else visit tuple s

theorem foldlM_flatMap {σ ι κ : Type} (f : σ → κ → Except Stop σ) (g : ι → List κ) (l : List ι) (s : σ) :
    (l.flatMap g).foldlM f s = l.foldlM (fun s a => (g a).foldlM f s) s := by
  induction l generalizing s with
  | nil => rfl
  | cons a l ih =>
    rw [flatMap_cons, foldlM_append, foldlM_cons]
    exact congrArg _ (funext ih)

variable {compVars : List CompVar}

theorem notinWalk_tuples {compVars : List CompVar} (hok : ∀ c ∈ compVars, c.Ok) :
    ∃ ts : List (List ℤ), (∀ t, t ∈ ts ↔ InProduct compVars t) ∧
      ∀ (σ : Type) (htable : HTable) (visit : List ℤ → σ → Except Stop σ) (tuple : List ℤ) (s : σ),
        notinWalk htable visit compVars tuple s = (ts.map fun t => tuple ++ t).foldlM (visitUnless htable visit) s := by
  induction compVars with
  | nil =>
    refine ⟨[[]], fun t => ?_, fun σ htable visit tuple s => ?_⟩
    · rw [mem_singleton, InProduct, forall₂_nil_left_iff]
    · simp only [map_cons, map_nil, append_nil, foldlM_cons, foldlM_nil, bind_pure]
      rfl
  | cons c compVars ih =>
    obtain ⟨hc, hok⟩ := forall_mem_cons.1 hok
    obtain ⟨ts, hts, hrun⟩ := ih hok
    have hcons : ∀ (l : List ℤ), (∀ x, x ∈ l ↔ c.Can x) →
        ∀ t, t ∈ (l.flatMap fun e => ts.map (e :: ·)) ↔ InProduct (c :: compVars) t := by
      intro l hl t
      simp only [mem_flatMap, mem_map, hl, hts, InProduct, forall₂_cons_left_iff]
      constructor
      · rintro ⟨e, he, u, hu, rfl⟩
        exact ⟨e, u, he, hu, rfl⟩
      · rintro ⟨e, u, he, hu, rfl⟩
        exact ⟨e, he, u, hu, rfl⟩
    have hmap : ∀ (tuple : List ℤ) (e : ℤ), (ts.map fun t => tuple ++ [e] ++ t) =
        (ts.map (e :: ·)).map fun t => tuple ++ t := fun tuple e => by
      rw [map_map]
      refine map_congr_left fun t _ => ?_
      simp
    cases c with
    | int v =>
      refine ⟨[v].flatMap fun e => ts.map (e :: ·), hcons [v] fun x => mem_singleton, fun σ htable visit tuple s => ?_⟩
      rw [notinWalk, hrun, hmap, flatMap_cons, flatMap_nil, append_nil]
    | var d =>
      obtain ⟨l, hl, hloop⟩ := domainLoop_from hc.1 ((d.last - d.first).toNat + 1) d.first hc.1.first_mem_elems (by omega)
      have hvalues : ∀ x, x ∈ l ↔ CompVar.Can (.var d) x := fun x =>
        (hl x).trans (and_iff_left_of_imp fun hx => (Dvar.mem_elems.1 hx).1.1)
      refine ⟨l.flatMap fun e => ts.map (e :: ·), hcons l hvalues, fun σ htable visit tuple s => ?_⟩
      rw [notinWalk, hloop, map_flatMap, foldlM_flatMap]
      refine congrArg (fun f => l.foldlM f s) (funext fun s => funext fun e => ?_)
      rw [hrun, hmap]

theorem notinWalk_eq (hok : ∀ c ∈ compVars, c.Ok) (htable : HTable) (hplaced : htable.Placed compVars.length) :
    ∃ ts : List (List ℤ), (∀ t, t ∈ ts ↔ InProduct compVars t ∧ ¬ htable.Has t) ∧
      ∀ (σ : Type) (visit : List ℤ → σ → Except Stop σ) (s : σ),
        notinWalk htable visit compVars [] s = ts.foldlM (fun s t => visit t s) s := by
  obtain ⟨ts, hts, hrun⟩ := notinWalk_tuples hok
  refine ⟨ts.filter fun t => !htableContainsTuple htable t t.length, fun t => ?_, fun σ visit s => ?_⟩
  · rw [mem_filter, hts, Bool.not_eq_true', ← Bool.not_eq_true]
    refine and_congr_right fun hin => not_congr (htableContainsTuple_iff ?_)
    rwa [← hin.length_eq]
  · rw [hrun]
    simp only [nil_append, map_id']
    clear hts hrun
    induction ts generalizing s with
    | nil => rfl
    | cons t ts ih =>
      rw [foldlM_cons, filter_cons, visitUnless]
      cases htableContainsTuple htable t t.length with
      | true => exact ih s
      | false => exact congrArg _ (funext ih)

/-! ## Both passes -/

/-- The values at `j` of the tuples of the product that are not in the table and have `k` at `i`. -/
def notinSupports (compVars : List CompVar) (htable : HTable) (i j : ℕ) (k : ℤ) : Set ℤ :=
  {v | ∃ t, InProduct compVars t ∧ ¬ htable.Has t ∧ t.getD i 0 = k ∧ t.getD j 0 = v}

theorem CompVar.Ok.bounds {c : CompVar} (h : c.Ok) {x : ℤ} (hx : c.Can x) : 0 ≤ x ∧ x ≤ c.max ∧ c.max ≤ bpMaxint1W := by
  cases c with
  | int v =>
    obtain rfl := hx
    exact ⟨h.1, le_refl _, h.2⟩
  | var d =>
    have hmem := (Dvar.mem_elems.1 hx).1
    exact ⟨h.2.1.trans hmem.1, hmem.2, h.2.2⟩

theorem InProduct.tuplesOk (hok : ∀ c ∈ compVars, c.Ok) {ts : List (List ℤ)}
    (hts : ∀ t ∈ ts, InProduct compVars t) : TuplesOk (compVars.map CompVar.max) ts := by
  have hbounds : ∀ t ∈ ts, ∀ i < (compVars.map CompVar.max).length,
      0 ≤ t.getD i 0 ∧ t.getD i 0 ≤ (compVars.map CompVar.max).getD i (-1) := by
    intro t ht i hi
    rw [length_map] at hi
    have hin := hts t ht
    have hit : i < t.length := hin.length_eq ▸ hi
    have hcan := List.Forall₂.get hin hi hit
    have hb := (hok _ (getElem_mem hi)).bounds hcan
    rw [getD_eq_getElem _ _ hit, getD_eq_getElem _ _ (by rwa [length_map]), getElem_map]
    exact ⟨hb.1, hb.2.1⟩
  refine ⟨fun t ht => ?_, fun t ht i hi => (hbounds t ht i hi).1, fun t ht i hi => (hbounds t ht i hi).2, ?_⟩
  · rw [length_map, (hts t ht).length_eq]
  · intro e he
    obtain ⟨c, hc, rfl⟩ := mem_map.1 he
    cases c with
    | int v => exact (hok _ hc).2
    | var d => exact (hok _ hc).2.2

theorem bCfdBuildTriesNotin_eq (hok : ∀ c ∈ compVars, c.Ok) (htable : HTable)
    (hplaced : htable.Placed compVars.length) :
    ∃ ts : List (List ℤ), (∀ t, t ∈ ts ↔ InProduct compVars t ∧ ¬ htable.Has t) ∧
      ∀ (garbage : ℕ → ℤ) (tries : Tries), bCfdBuildTriesNotin garbage compVars htable tries =
        bCfdBuildTriesIn garbage (compVars.map CompVar.max) ts tries := by
  obtain ⟨ts, hts, hrun⟩ := notinWalk_eq hok htable hplaced
  refine ⟨ts, hts, fun garbage tries => ?_⟩
  simp only [bCfdBuildTriesNotin, bCfdBuildTriesIn, computeMinsMaxsNotin, computeSupportsNotin, hrun, computeMinsMaxsIn,
    computeSupportsIn, length_map]

/-- The tries record exactly the supports that the table leaves, and a cell is free if and only if there are none. -/
theorem bCfdBuildTriesNotin_supports (garbage : ℕ → ℤ) {compVars : List CompVar} (hok : ∀ c ∈ compVars, c.Ok)
    (htable : HTable) (hplaced : htable.Placed compVars.length) :
    ∃ tries, bCfdBuildTriesNotin garbage compVars htable (freshTries (compVars.map CompVar.max)) = .ok tries ∧
      ∀ i < compVars.length, ∀ j < compVars.length, i ≠ j → ∀ k : ℤ,
        ((trieCell (tries i j) k).denotes : Set ℤ) = notinSupports compVars htable i j k ∧
        (trieCell (tries i j) k = .absent ↔ notinSupports compVars htable i j k = ∅) ∧
        ∀ d, trieCell (tries i j) k = .var d → d.Inv ∧ d.var = .susp := by
  obtain ⟨ts, hts, heq⟩ := bCfdBuildTriesNotin_eq hok htable hplaced
  obtain ⟨tries, hrun, -, hcells⟩ := bCfdBuildTriesIn_shape garbage (compVars.map CompVar.max) ts
    (InProduct.tuplesOk hok fun t ht => ((hts t).1 ht).1)
  refine ⟨tries, (heq garbage _).trans hrun, fun i hi j hj hij k => ?_⟩
  obtain ⟨hdenotes, habsent, hinv⟩ := hcells i (by rwa [length_map]) j (by rwa [length_map]) hij k
  have hset : (supports ts i j k : Set ℤ) = notinSupports compVars htable i j k := by
    ext v
    rw [Finset.mem_coe, mem_supports]
    simp only [hts, and_assoc]
    rfl
  rw [hdenotes, habsent, ← hset]
  exact ⟨rfl, Finset.coe_eq_empty.symm, hinv⟩

theorem bCfdBuildTriesNotin_one_two :
    ∃ tries, bCfdBuildTriesNotin (fun _ => 7) [.int 1, .var (newItDomainVar 0 2)] [[], [[1, 2]], []]
        (freshTries [1, 2]) = .ok tries ∧
      ∀ i < 2, ∀ j < 2, i ≠ j → ∀ k : ℤ, ((trieCell (tries i j) k).denotes : Set ℤ) =
          notinSupports [.int 1, .var (newItDomainVar 0 2)] [[], [[1, 2]], []] i j k ∧
        (trieCell (tries i j) k = .absent ↔
          notinSupports [.int 1, .var (newItDomainVar 0 2)] [[], [[1, 2]], []] i j k = ∅) ∧
        ∀ d, trieCell (tries i j) k = .var d → d.Inv ∧ d.var = .susp := by
  have hplaced : HTable.Placed [[], [[1, 2]], []] 2 := by
    refine ⟨by simp, fun i t ht => ?_⟩
    rcases i with _ | _ | _ | i
    · simp at ht
    · obtain rfl : t = [1, 2] := by simpa using ht
      decide
    · simp at ht
    · simp at ht
  refine @bCfdBuildTriesNotin_supports (fun _ => 7) [.int 1, .var (newItDomainVar 0 2)] ?_ _ hplaced
  intro c hc
  simp only [mem_cons, not_mem_nil, or_false] at hc
  rcases hc with rfl | rfl
  · exact ⟨by decide, by decide⟩
  · exact ⟨⟨by decide, rfl, rfl, fun b hb => DvType.noConfusion hb⟩, by decide, by decide⟩

end Picat
