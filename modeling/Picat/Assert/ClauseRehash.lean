import Picat.Assert.ClauseIndex

/-!
# A larger hash table for a dynamic predicate

* `Indexed.bury` : a clause that open calls may see only gets its time of death.
-/

namespace Picat

open Chains DoublyLinked Variants Function List

namespace InterpretedPred

variable {listPsc : Sym} {s s' s'' : InterpretedPred} {cells : ℕ → List ℕ}

/-! ## The cells of the buckets -/

/-- The cells `as` are free, and nothing else has changed. -/
structure Released (as : List ℕ) (s s' : InterpretedPred) : Prop where
  same : SamePred s s'
  links : s'.links = s.links
  hashtable : s'.hashtable = s.hashtable
  cellTop : s'.cellTop = s.cellTop
  freeCells : s'.freeCells = as.reverse ++ s.freeCells
  car_eq : ∀ a, a ∉ as → s'.car a = s.car a

theorem Released.nil (s : InterpretedPred) : Released [] s s := ⟨.refl s, rfl, rfl, rfl, rfl, fun _ _ => rfl⟩

theorem Released.append {as bs : List ℕ} (h : Released as s s') (h' : Released bs s' s'') :
    Released (as ++ bs) s s'' := by
  refine ⟨h.same.trans h'.same, h'.links.trans h.links, h'.hashtable.trans h.hashtable, h'.cellTop.trans h.cellTop, ?_,
    fun a ha => ?_⟩
  · rw [h'.freeCells, h.freeCells, reverse_append, append_assoc]
  · rw [mem_append, not_or] at ha
    rw [h'.car_eq a ha.2, h.car_eq a ha.1]

theorem released_releaseCell (s : InterpretedPred) (a : ℕ) : Released [a] s (s.releaseCell a) :=
  ⟨⟨rfl, rfl, rfl, rfl, rfl, rfl, rfl, rfl⟩, rfl, rfl, rfl, rfl,
    fun _ hb => update_of_ne (fun heq => hb (mem_singleton.2 heq)) ..⟩

theorem released_releaseCells {list : Option ℕ} {as : List ℕ} {fuel : ℕ} (h : Chain id s.links.next list as)
    (hfuel : as.length ≤ fuel) : ∃ s', s.releaseCells fuel list = some s' ∧ Released as s s' := by
  induction as generalizing s list fuel with
  | nil =>
    rw [chain_nil.1 h]
    exact ⟨s, by cases fuel <;> rfl, .nil s⟩
  | cons a as ih =>
    obtain ⟨rfl, hchain⟩ := h
    cases fuel with
    | zero => simp at hfuel
    | succ fuel =>
      obtain ⟨s', hs', hrel⟩ := @ih (s.releaseCell a) _ _ hchain (Nat.le_of_succ_le_succ hfuel)
      exact ⟨s', hs', (released_releaseCell s a).append hrel⟩

theorem released_foldlM {fuel : ℕ} {list : ℕ → Option ℕ} {is : List ℕ} (h : ∀ i ∈ is, Chain id s.links.next (list i) (cells i))
    (hfuel : ∀ i ∈ is, (cells i).length ≤ fuel) :
    ∃ s', is.foldlM (fun r i => r.releaseCells fuel (list i)) s = some s' ∧ Released (is.flatMap cells) s s' := by
  induction is generalizing s with
  | nil => exact ⟨s, rfl, .nil s⟩
  | cons i is ih =>
    rw [forall_mem_cons] at h hfuel
    obtain ⟨r, hr, hrel⟩ := released_releaseCells h.1 hfuel.1
    obtain ⟨s', hs', hrel'⟩ := @ih r (fun j hj => by rw [hrel.links]; exact h.2 j hj) hfuel.2
    refine ⟨s', ?_, ?_⟩
    · rw [foldlM_cons, hr]
      exact hs'
    · rw [flatMap_cons]
      exact hrel.append hrel'

theorem Cells.onlyLast (h : Cells s cells) (newSize : ℕ)
    (hrel : Released ((List.range s.bucketSize).flatMap cells) s s') :
    Cells ⟨s'.refCount, s'.retrCount, s'.clCount, s'.timeStamp, newSize,
      update (fun _ => .nil) newSize (s.hashtable s.bucketSize), s'.car, s'.links, s'.freeCells, s'.cellTop,
      s'.clause, s'.freeClauses, s'.clauseTop⟩ (fun i => if i = newSize then cells s.bucketSize else []) := by
  have hin : ∀ {a : ℕ}, a ∈ (List.range s.bucketSize).flatMap cells → ∃ i < s.bucketSize, a ∈ cells i := fun ha => by
    obtain ⟨i, hi, ha⟩ := mem_flatMap.1 ha
    exact ⟨i, mem_range.1 hi, ha⟩
  have hshares : Shares s.links (update (fun _ => .nil) newSize (s.hashtable s.bucketSize))
      (fun i => if i = newSize then cells s.bucketSize else []) := by
    refine h.shares.rename (f := fun i => if i = newSize then some s.bucketSize else none) (fun i j k hi hj => ?_)
      (fun i k hi => ?_) fun i hi => ?_
    · split_ifs at hi hj with hi' hj'
      rw [hi', hj']
    · split_ifs at hi with hi'
      rw [Option.some.injEq] at hi
      rw [hi', update_self, if_pos rfl, hi]
      exact ⟨rfl, rfl⟩
    · split_ifs at hi with hi'
      exact ⟨update_of_ne hi' .., if_neg hi'⟩
  refine ⟨?_, fun i a ha => ?_, fun a ha => ?_, ?_⟩
  · rw [← hrel.links] at hshares
    exact hshares
  · split_ifs at ha with hi
    · obtain ⟨hlt, hfree⟩ := h.used _ a ha
      refine ⟨hrel.cellTop ▸ hlt, fun hin' => ?_⟩
      rw [show _ = _ from hrel.freeCells, mem_append, mem_reverse] at hin'
      refine hin'.elim (fun hin' => ?_) hfree
      obtain ⟨j, hj, hmem⟩ := hin hin'
      exact h.shares.disjoint j s.bucketSize hj.ne a hmem ha
    · exact absurd ha not_mem_nil
  · rw [show _ = _ from hrel.freeCells, mem_append, mem_reverse] at ha
    rw [show _ = _ from hrel.cellTop]
    refine ha.elim (fun ha => ?_) (h.free_lt a)
    obtain ⟨i, -, hmem⟩ := hin ha
    exact (h.used i a hmem).1
  · rw [show _ = _ from hrel.freeCells, nodup_append, nodup_reverse]
    refine ⟨?_, h.free_nodup, fun a ha b hb heq => ?_⟩
    · refine nodup_flatMap.2 ⟨fun i _ => (h.shares.holds i).nodup, ?_⟩
      exact nodup_range.imp fun {i j} hij => fun a ha hb => h.shares.disjoint i j hij a ha hb
    · obtain ⟨i, -, hmem⟩ := hin (mem_reverse.1 ha)
      exact (h.used i a hmem).2 (heq ▸ hb)

/-! ## The clauses asserted again -/

/-- The buckets have the clauses `done` of the last chain `all`. -/
structure Rebuilt (listPsc : Sym) (all done : List ℕ) (s : InterpretedPred) (cells : ℕ → List ℕ) : Prop where
  chains : Cells s cells
  last : cells s.bucketSize = all
  outside : ∀ i, s.bucketSize < i → cells i = []
  bucket_eq : ∀ i < s.bucketSize, clausesOf s cells i = done.filter fun c => i ∈ s.bucketsOf (hashval listPsc s c)

theorem hashval_congr (h : s'.clause = s.clause) (c : ℕ) : hashval listPsc s' c = hashval listPsc s c := by
  unfold hashval
  rw [h]

theorem Rebuilt.step {all done : List ℕ} (h : Rebuilt listPsc all done s cells) (c : ℕ) :
    ∃ s' cells', s.assertIntoBuckets false c (s.bucketsOf (hashval listPsc s c)) = some s' ∧ SamePred s s' ∧
      Rebuilt listPsc all (done ++ [c]) s' cells' ∧ ∀ a ∈ all, s'.car a = s.car a := by
  obtain ⟨s', cells', hs', hsame, hins⟩ := h.chains.assertIntoBuckets false c (nodup_bucketsOf s (hashval listPsc s c))
  have hmiss : ∀ i, s.bucketSize ≤ i → cells' i = cells i := fun i hi =>
    hins.miss i fun hin => absurd (mem_bucketsOf.1 hin).1 (Nat.not_lt.2 hi)
  have hbuckets : ∀ d, s'.bucketsOf (hashval listPsc s' d) = s.bucketsOf (hashval listPsc s d) := fun d => by
    rw [hashval_congr hsame.clause, bucketsOf_congr hsame.bucketSize]
  refine ⟨s', cells', hs', hsame, ⟨hins.after, ?_, fun i hi => ?_, fun i hi => ?_⟩, fun a ha => ?_⟩
  · rw [hsame.bucketSize, hmiss _ le_rfl]
    exact h.last
  · rw [hsame.bucketSize] at hi
    rw [hmiss i hi.le]
    exact h.outside i hi
  · rw [hsame.bucketSize] at hi
    have hrow : clausesOf s' cells' i = if i ∈ s.bucketsOf (hashval listPsc s c) then
        insertAt false c (clausesOf s cells i) else clausesOf s cells i := hins.map_car i
    rw [hrow, h.bucket_eq i hi, filter_append]
    simp only [hbuckets]
    by_cases hc : i ∈ s.bucketsOf (hashval listPsc s c)
    · rw [if_pos hc, filter_cons_of_pos (by simpa using hc)]
      rfl
    · rw [if_neg hc, filter_cons_of_neg (by simpa using hc), filter_nil, append_nil]
  · exact hins.car_eq s.bucketSize a (h.last ▸ ha)

theorem Rebuilt.reassert {all done pre rest : List ℕ} (h : Rebuilt listPsc all done s cells) (hall : all = pre ++ rest)
    {fuel : ℕ} (hfuel : rest.length ≤ fuel) :
    ∃ s' cells', s.reassert listPsc fuel rest.head? = some s' ∧ SamePred s s' ∧
      Rebuilt listPsc all (done ++ rest.map s.car) s' cells' ∧ ∀ a ∈ all, s'.car a = s.car a := by
  induction rest generalizing s cells done pre fuel with
  | nil =>
    rw [map_nil, append_nil]
    exact ⟨s, cells, by cases fuel <;> rfl, .refl s, h, fun _ _ => rfl⟩
  | cons a rest ih =>
    cases fuel with
    | zero => simp at hfuel
    | succ fuel =>
      have hnext : s.links.next a = rest.head? :=
        ((h.chains.shares.holds s.bucketSize).links pre a rest (h.last.trans hall)).1
      obtain ⟨r, rcells, hr, hsame, hstep, hcar⟩ := h.step (s.car a)
      obtain ⟨s', cells', hs', hsame', hdone, hcar'⟩ := @ih r rcells _ (pre ++ [a]) hstep
        (by rw [hall, append_assoc]; rfl) fuel (Nat.le_of_succ_le_succ hfuel)
      have hrest : rest.map r.car = rest.map s.car :=
        map_congr_left fun b hb => hcar b (by rw [hall]; exact mem_append_right _ (mem_cons_of_mem a hb))
      refine ⟨s', cells', ?_, hsame.trans hsame', ?_, fun b hb => (hcar' b hb).trans (hcar b hb)⟩
      · rw [List.head?_cons, InterpretedPred.reassert, hnext]
        rw [hashval] at hr
        rw [hr]
        exact hs'
      · rw [hrest, append_assoc] at hdone
        exact hdone

structure Rehashed (listPsc : Sym) (s : InterpretedPred) (cells : ℕ → List ℕ) (s' : InterpretedPred)
    (cells' : ℕ → List ℕ) : Prop where
  indexed : Indexed listPsc s' cells'
  last : cells' s'.bucketSize = cells s.bucketSize
  car_eq : ∀ a ∈ cells s.bucketSize, s'.car a = s.car a
  refCount : s'.refCount = s.refCount
  retrCount : s'.retrCount = s.retrCount
  clCount : s'.clCount = s.clCount
  timeStamp : s'.timeStamp = s.timeStamp
  clause : s'.clause = s.clause
  freeClauses : s'.freeClauses = s.freeClauses
  clauseTop : s'.clauseTop = s.clauseTop

theorem Rehashed.clausesOf_eq {cells' : ℕ → List ℕ} (h : Rehashed listPsc s cells s' cells') :
    clausesOf s' cells' s'.bucketSize = clausesOf s cells s.bucketSize := by
  unfold clausesOf
  rw [h.last]
  exact map_congr_left h.car_eq

theorem Indexed.rehash (h : Indexed listPsc s cells) (malloc : Bool) :
    ∃ s' cells', s.rehashInterpretedPred listPsc malloc = some s' ∧ Rehashed listPsc s cells s' cells' ∧
      s'.bucketSize = if malloc then bpHsize (2 * s.bucketSize) else s.bucketSize := by
  cases malloc with
  | false => exact ⟨s, cells, rfl, ⟨h, rfl, fun _ _ => rfl, rfl, rfl, rfl, rfl, rfl, rfl, rfl⟩, rfl⟩
  | true =>
    obtain ⟨r, hr, hrel⟩ := @released_foldlM s cells s.cellTop (fun i => (s.hashtable i).list) (List.range s.bucketSize)
      (fun i _ => (h.chains.shares.holds i).chain) fun i _ => h.chains.length_le i
    set newSize := bpHsize (2 * s.bucketSize) with hsize
    have hlast := h.chains.onlyLast newSize hrel
    set t : InterpretedPred := ⟨r.refCount, r.retrCount, r.clCount, r.timeStamp, newSize,
      update (fun _ => .nil) newSize (s.hashtable s.bucketSize), r.car, r.links, r.freeCells, r.cellTop,
      r.clause, r.freeClauses, r.clauseTop⟩ with ht
    have hstart : Rebuilt listPsc (cells s.bucketSize) [] t (fun i => if i = newSize then cells s.bucketSize else []) := by
      refine ⟨hlast, if_pos rfl, fun i hi => if_neg hi.ne', fun i hi => ?_⟩
      rw [clausesOf, if_neg (show i ≠ newSize from hi.ne)]
      rfl
    have hcar : ∀ a ∈ cells s.bucketSize, t.car a = s.car a := fun a ha => hrel.car_eq a fun hin => by
      obtain ⟨i, hi, hmem⟩ := mem_flatMap.1 hin
      exact h.chains.shares.disjoint i s.bucketSize (mem_range.1 hi).ne a hmem ha
    obtain ⟨s', cells', hs', hsame, hdone, hcar'⟩ := @Rebuilt.reassert listPsc t _ (cells s.bucketSize) [] [] _ hstart rfl
      s.cellTop (h.chains.length_le s.bucketSize)
    have hclause : s'.clause = s.clause := hsame.clause.trans hrel.same.clause
    have hnew : s'.bucketSize = newSize := hsame.bucketSize
    have hfull : clausesOf s' cells' s'.bucketSize = clausesOf s cells s.bucketSize := by
      unfold clausesOf
      rw [hdone.last]
      exact map_congr_left fun a ha => (hcar' a ha).trans (hcar a ha)
    have hmapped : [] ++ (cells s.bucketSize).map t.car = clausesOf s' cells' s'.bucketSize := by
      rw [hfull]
      exact map_congr_left hcar
    rw [hmapped] at hdone
    refine ⟨s', cells', ?_, ⟨⟨hdone.chains, hdone.outside, hdone.bucket_eq, ?_, fun a ha => ?_, ?_, fun c hc => ?_, ?_⟩,
      hdone.last, fun a ha => (hcar' a ha).trans (hcar a ha), hsame.refCount.trans hrel.same.refCount,
      hsame.retrCount.trans hrel.same.retrCount, hsame.clCount.trans hrel.same.clCount,
      hsame.timeStamp.trans hrel.same.timeStamp, hclause, hsame.freeClauses.trans hrel.same.freeClauses,
      hsame.clauseTop.trans hrel.same.clauseTop⟩, hnew⟩
    · rw [rehashInterpretedPred, if_pos rfl]
      simp only [Option.bind_eq_bind, hr, Option.bind_some]
      rw [← (h.chains.shares.holds s.bucketSize).list_eq] at hs'
      exact hs'
    · rw [hfull]
      exact h.nodup
    · rw [hdone.last] at ha
      rw [hclause, hcar' a ha, hcar a ha]
      exact h.clRef_eq a ha
    · rw [hfull, hsame.clauseTop, hsame.freeClauses, show t.clauseTop = _ from hrel.same.clauseTop,
        show t.freeClauses = _ from hrel.same.freeClauses]
      exact h.used
    · rw [hsame.freeClauses, show t.freeClauses = _ from hrel.same.freeClauses] at hc
      rw [hsame.clauseTop, show t.clauseTop = _ from hrel.same.clauseTop]
      exact h.free_lt c hc
    · rw [hsame.freeClauses, show t.freeClauses = _ from hrel.same.freeClauses]
      exact h.free_nodup

end InterpretedPred

/-! ## The clauses of a dynamic predicate that are removed -/

namespace InterpretedPred

variable {listPsc : Sym} {s s' : InterpretedPred} {cells cells' : ℕ → List ℕ} {c : ℕ}

/-- The clause `c` is in no chain any more. -/
structure Retracted (listPsc : Sym) (c : ℕ) (s : InterpretedPred) (cells : ℕ → List ℕ) (s' : InterpretedPred)
    (cells' : ℕ → List ℕ) : Prop where
  indexed : Indexed listPsc s' cells'
  cells_eq : ∀ i, cells' i = (cells i).filter fun a => s.car a ≠ c
  car_eq : ∀ i, ∀ a ∈ cells' i, s'.car a = s.car a
  clause_ne : ∀ d, d ≠ c → s'.clause d = s.clause d
  refCount : s'.refCount = s.refCount
  retrCount : s'.retrCount = s.retrCount
  timeStamp : s'.timeStamp = s.timeStamp
  bucketSize : s'.bucketSize = s.bucketSize

theorem clausesOf_filter (hcells : ∀ i, cells' i = (cells i).filter fun a => s.car a ≠ c)
    (hcar : ∀ i, ∀ a ∈ cells' i, s'.car a = s.car a) (i : ℕ) :
    clausesOf s' cells' i = (clausesOf s cells i).filter fun d => d ≠ c := by
  unfold clausesOf
  rw [map_congr_left (hcar i), hcells i, filter_map]
  rfl

theorem Retracted.clausesOf_eq (h : Retracted listPsc c s cells s' cells') (i : ℕ) :
    clausesOf s' cells' i = (clausesOf s cells i).filter fun d => d ≠ c := clausesOf_filter h.cells_eq h.car_eq i

section
variable (h : Indexed listPsc s cells)
include h

theorem Indexed.filter_of_notMem {i : ℕ} (hi : i ≠ s.bucketSize)
    (hc : i ∉ s.bucketsOf (hashval listPsc s c)) : (cells i).filter (fun a => s.car a ≠ c) = cells i := by
  refine filter_eq_self.2 fun a ha => decide_eq_true fun hcar => ?_
  have hmem : s.car a ∈ clausesOf s cells i := mem_map_of_mem ha
  rcases lt_or_gt_of_ne hi with hi | hi
  · rw [h.bucket_eq i hi, hcar] at hmem
    exact hc (of_decide_eq_true (mem_filter.1 hmem).2)
  · rw [h.outside i hi] at ha
    exact absurd ha not_mem_nil

/-- What is left of the index when the cells of a clause are out of all chains and its record is free. -/
theorem Indexed.without (hc : c ∈ clausesOf s cells s.bucketSize)
    (hchains : Cells s' cells') (hcells : ∀ i, cells' i = (cells i).filter fun a => s.car a ≠ c)
    (hcar : ∀ i, ∀ a ∈ cells' i, s'.car a = s.car a) (hclause : ∀ d, d ≠ c → s'.clause d = s.clause d)
    (hsize : s'.bucketSize = s.bucketSize) (hfree : s'.freeClauses = c :: s.freeClauses)
    (htop : s'.clauseTop = s.clauseTop) : Indexed listPsc s' cells' := by
  have hrow := fun i => @clausesOf_filter s s' cells cells' c hcells hcar i
  have hne : ∀ {d : ℕ}, d ∈ (clausesOf s cells s.bucketSize).filter (fun d => d ≠ c) →
      d ∈ clausesOf s cells s.bucketSize ∧ d ≠ c := fun hd => by
    rw [mem_filter] at hd
    exact ⟨hd.1, of_decide_eq_true hd.2⟩
  refine ⟨hchains, fun i hi => ?_, fun i hi => ?_, ?_, fun a ha => ?_, fun d hd => ?_, fun d hd => ?_, ?_⟩
  · rw [hcells, h.outside i (hsize ▸ hi)]
    rfl
  · rw [hrow, hrow, hsize, h.bucket_eq i (hsize ▸ hi), filter_filter, filter_filter]
    apply filter_congr
    intro d _
    by_cases hd : d = c
    · simp [hd]
    · rw [hashval, hashval, hclause d hd, bucketsOf_congr hsize, Bool.and_comm]
  · rw [hrow, hsize]
    exact h.nodup.filter _
  · rw [hsize] at ha
    have hold := hcar _ a ha
    rw [hcells, mem_filter] at ha
    rw [hold, hclause _ (of_decide_eq_true ha.2)]
    exact h.clRef_eq a ha.1
  · rw [hrow, hsize] at hd
    obtain ⟨hd, hdc⟩ := hne hd
    rw [hfree, htop, mem_cons, not_or]
    exact ⟨(h.used d hd).1, hdc, (h.used d hd).2⟩
  · rw [hfree, mem_cons] at hd
    rw [htop]
    exact hd.elim (fun hd => hd ▸ (h.used c hc).1) (h.free_lt d)
  · rw [hfree, nodup_cons]
    exact ⟨(h.used c hc).2, h.free_nodup⟩

theorem Indexed.locateAndFree (honly : s.isOnlyRetract = true)
    (hc : c ∈ clausesOf s cells s.bucketSize) (hsize : hashval listPsc s c = 0 ∨ s.bucketSize ≠ 0) :
    ∃ s' cells', s.locateAndFreeClauseRecord listPsc c = some s' ∧ Retracted listPsc c s cells s' cells' := by
  obtain ⟨a, ha, hac⟩ := mem_map.1 hc
  have hca : (s.clause c).clRef = a := hac ▸ h.clRef_eq a ha
  obtain ⟨l, r, hlast⟩ := append_of_mem ha
  obtain ⟨t, ht, hsame, htcells, htcar, htfree, httop⟩ := h.chains.disconnect hlast
  have hcut : (cells s.bucketSize).filter (fun b => s.car b ≠ c) = l ++ r := by
    have hnodup := h.nodup
    rw [clausesOf, hlast] at hnodup
    rw [hlast, ← hac]
    exact filter_ne_eq hnodup
  have hself : update cells s.bucketSize (l ++ r) s.bucketSize = l ++ r := update_self ..
  have hother : ∀ i, i ≠ s.bucketSize → update cells s.bucketSize (l ++ r) i = cells i :=
    fun i hi => update_of_ne hi ..
  -- the cells of the buckets
  have honly' := hsame.isOnlyRetract honly
  obtain ⟨u, cells', hu, hsame', hrem⟩ := @Cells.freeCells t _ c htcells honly' (s.bucketsOf (hashval listPsc s c))
    (nodup_bucketsOf s _) fun i hi => by
      rw [hother i (mem_bucketsOf.1 hi).1.ne, htcar]
      exact h.nodup_clausesOf i
  have hcells : ∀ i, cells' i = (cells i).filter fun b => s.car b ≠ c := fun i => by
    rw [hrem.cells_eq, htcar]
    by_cases hi : i = s.bucketSize
    · rw [if_neg fun hin => absurd (mem_bucketsOf.1 hin).1 (by rw [hi]; exact lt_irrefl _), hi, hself, hcut]
    · rw [hother i hi]
      split_ifs with hin
      · rfl
      · exact (h.filter_of_notMem hi hin).symm
  have hout : ∀ i, a ∉ cells' i := fun i hin => by
    rw [hcells, mem_filter] at hin
    exact of_decide_eq_true hin.2 hac
  have hafree : a ∉ u.freeCells := fun hin => by
    rcases hrem.free a hin with hin | ⟨i, hin⟩
    · exact (h.chains.used _ a ha).2 (htfree ▸ hin)
    · by_cases hi : i = s.bucketSize
      · rw [hi, hself, ← hcut, mem_filter] at hin
        exact of_decide_eq_true hin.2 hac
      · rw [hother i hi] at hin
        exact h.chains.shares.disjoint i _ hi a hin ha
  have hatop : a < u.cellTop := by
    rw [hrem.cellTop, httop]
    exact (h.chains.used _ a ha).1
  -- the cell of the last chain and the record
  have hclause : u.clause = s.clause := hsame'.clause.trans hsame.clause
  have hrec : Cells (u.releaseClause c) cells' :=
    ⟨hrem.after.shares, hrem.after.used, hrem.after.free_lt, hrem.after.free_nodup⟩
  have hrel : Cells ((u.releaseClause c).releaseCell a) cells' := hrec.release hatop hafree hout
  have hcar : ∀ i, ∀ b ∈ cells' i, ((u.releaseClause c).releaseCell a).car b = s.car b := fun i b hb => by
    have hba : b ≠ a := fun heq => hout i (heq ▸ hb)
    exact (update_of_ne hba ..).trans ((hrem.car_eq i b hb).trans (congrFun htcar b))
  have hne : ∀ d, d ≠ c → ((u.releaseClause c).releaseCell a).clause d = s.clause d := fun d hd =>
    (update_of_ne hd ..).trans (congrFun hclause d)
  refine ⟨(u.releaseClause c).releaseCell a, cells', ?_, ⟨h.without hc hrel hcells hcar hne
    (hsame'.bucketSize.trans hsame.bucketSize) ?_ (hsame'.clauseTop.trans hsame.clauseTop), hcells, hcar, hne,
    hsame'.refCount.trans hsame.refCount, hsame'.retrCount.trans hsame.retrCount,
    hsame'.timeStamp.trans hsame.timeStamp, hsame'.bucketSize.trans hsame.bucketSize⟩⟩
  · have hdiv : ¬(hashvalInAssert listPsc (t.clause c) ≠ 0 ∧ t.bucketSize = 0) := fun hin => by
      rw [hsame.clause, hsame.bucketSize] at hin
      exact hsize.elim hin.1 fun hs => hs hin.2
    have hbuckets : t.bucketsOf (hashvalInAssert listPsc (t.clause c)) = s.bucketsOf (hashval listPsc s c) := by
      rw [hsame.clause, bucketsOf_congr hsame.bucketSize]
      rfl
    rw [locateAndFreeClauseRecord, hca]
    simp only [Option.bind_eq_bind, ht, Option.bind_some, if_neg hdiv, hbuckets, hu, if_pos (hsame'.isOnlyRetract honly')]
  · exact congrArg (c :: ·) (hsame'.freeClauses.trans hsame.freeClauses)

theorem Indexed.locateAndFree_none (hc : c ∈ clausesOf s cells s.bucketSize)
    (hhash : hashval listPsc s c ≠ 0) (hsize : s.bucketSize = 0) : s.locateAndFreeClauseRecord listPsc c = none := by
  obtain ⟨a, ha, hac⟩ := mem_map.1 hc
  have hca : (s.clause c).clRef = a := hac ▸ h.clRef_eq a ha
  obtain ⟨l, r, hlast⟩ := append_of_mem ha
  obtain ⟨t, ht, hsame, -⟩ := h.chains.disconnect hlast
  have hdiv : hashvalInAssert listPsc (t.clause c) ≠ 0 ∧ t.bucketSize = 0 := by
    rw [hsame.clause, hsame.bucketSize]
    exact ⟨hhash, hsize⟩
  rw [locateAndFreeClauseRecord, hca]
  simp only [Option.bind_eq_bind, ht, Option.bind_some, if_pos hdiv, Option.bind_none]

theorem Indexed.bury (c count time : ℕ) :
    Indexed listPsc ⟨s.refCount, s.retrCount, count, s.timeStamp + 1, s.bucketSize, s.hashtable, s.car, s.links, s.freeCells,
      s.cellTop, update s.clause c { s.clause c with deathTimeStamp := some time }, s.freeClauses, s.clauseTop⟩
      cells := by
  have hupdate : ∀ d, (update s.clause c { s.clause c with deathTimeStamp := some time } d).head = (s.clause d).head ∧
      (update s.clause c { s.clause c with deathTimeStamp := some time } d).clRef = (s.clause d).clRef := fun d => by
    by_cases hd : d = c
    · rw [hd, update_self]
      exact ⟨rfl, rfl⟩
    · rw [update_of_ne hd]
      exact ⟨rfl, rfl⟩
  refine ⟨⟨h.chains.shares, h.chains.used, h.chains.free_lt, h.chains.free_nodup⟩, h.outside, fun i hi => ?_, h.nodup,
    fun a ha => (hupdate _).2.trans (h.clRef_eq a ha), h.used, h.free_lt, h.free_nodup⟩
  refine (h.bucket_eq i hi).trans (filter_congr fun d _ => ?_)
  rw [hashval, hashval, hashvalInAssert, hashvalInAssert, (hupdate d).1]
  rfl

end

end InterpretedPred

end Picat
