import Picat.Assert.Clauses

/-!
# The first-argument index of a dynamic predicate

* `Indexed.assert` : a new clause keeps the index, and `Asserted` says what it does to the chains.
-/

namespace Picat

open Chains DoublyLinked Variants Function List

namespace InterpretedPred

variable {listPsc : Sym} {s s' : InterpretedPred} {cells cells' : ℕ → List ℕ}

def hashval (listPsc : Sym) (s : InterpretedPred) (c : ℕ) : ℕ := hashvalInAssert listPsc (s.clause c)

def clausesOf (s : InterpretedPred) (cells : ℕ → List ℕ) (i : ℕ) : List ℕ := (cells i).map s.car

/-- Every bucket has the clauses that belong there, in the order of the chain of all clauses. -/
structure Indexed (listPsc : Sym) (s : InterpretedPred) (cells : ℕ → List ℕ) : Prop where
  chains : Cells s cells
  outside : ∀ i, s.bucketSize < i → cells i = []
  bucket_eq : ∀ i < s.bucketSize, clausesOf s cells i =
    (clausesOf s cells s.bucketSize).filter fun c => i ∈ s.bucketsOf (hashval listPsc s c)
  nodup : (clausesOf s cells s.bucketSize).Nodup
  clRef_eq : ∀ a ∈ cells s.bucketSize, (s.clause (s.car a)).clRef = a
  used : ∀ c ∈ clausesOf s cells s.bucketSize, c < s.clauseTop ∧ c ∉ s.freeClauses
  free_lt : ∀ c ∈ s.freeClauses, c < s.clauseTop
  free_nodup : s.freeClauses.Nodup

theorem indexed_new (listPsc : Sym) (size : ℕ) : Indexed listPsc (new size) fun _ => [] where
  chains := ⟨⟨fun _ => holds_nil _, fun _ _ _ _ h => absurd h not_mem_nil⟩, fun _ _ h => absurd h not_mem_nil,
    fun _ h => absurd h not_mem_nil, nodup_nil⟩
  outside _ _ := rfl
  bucket_eq _ _ := rfl
  nodup := nodup_nil
  clRef_eq _ h := absurd h not_mem_nil
  used _ h := absurd h not_mem_nil
  free_lt _ h := absurd h not_mem_nil
  free_nodup := nodup_nil

theorem Indexed.nodup_clausesOf (h : Indexed listPsc s cells) (i : ℕ) : (clausesOf s cells i).Nodup := by
  rcases lt_trichotomy i s.bucketSize with hi | rfl | hi
  · rw [h.bucket_eq i hi]
    exact h.nodup.filter _
  · exact h.nodup
  · rw [clausesOf, h.outside i hi]
    exact nodup_nil

theorem bucketsOf_congr (h : s'.bucketSize = s.bucketSize) (hash : ℕ) : s'.bucketsOf hash = s.bucketsOf hash := by
  unfold bucketsOf
  rw [h]

/-! ## A new clause -/

structure NewClause (listPsc : Sym) (s : InterpretedPred) (head body : Tm Label ℕ) (cells : ℕ → List ℕ) (c : ℕ)
    (s' : InterpretedPred) : Prop where
  indexed : Indexed listPsc s' cells
  fresh : c ∉ clausesOf s cells s.bucketSize
  lt_top : c < s'.clauseTop
  not_free : c ∉ s'.freeClauses
  bucketSize : s'.bucketSize = s.bucketSize
  timeStamp : s'.timeStamp = s.timeStamp
  refCount : s'.refCount = s.refCount
  retrCount : s'.retrCount = s.retrCount
  car : s'.car = s.car
  clause_self : ∃ a, s'.clause c = ⟨a, (numberVarCopyToParea ⟨fun _ => none, 1⟩ head).1,
    (numberVarCopyToParea (numberVarCopyToParea ⟨fun _ => none, 1⟩ head).2 body).1, s.timeStamp, none⟩
  clause_ne : ∀ d, d ≠ c → s'.clause d = s.clause d

theorem Indexed.createClauseRecord (h : Indexed listPsc s cells) (head body : Tm Label ℕ) :
    NewClause listPsc s head body cells (s.createClauseRecord head body).1 (s.createClauseRecord head body).2 := by
  have hcongr : ∀ {s' : InterpretedPred} {c : ℕ}, c ∉ clausesOf s cells s.bucketSize → s'.bucketSize = s.bucketSize →
      s'.car = s.car → (∀ d, d ≠ c → s'.clause d = s.clause d) →
      (∀ i < s'.bucketSize, clausesOf s' cells i =
        (clausesOf s' cells s'.bucketSize).filter fun d => i ∈ s'.bucketsOf (hashval listPsc s' d)) ∧
      ∀ a ∈ cells s'.bucketSize, (s'.clause (s'.car a)).clRef = a := by
    intro s' c hc hsize hcar hclause
    have hne : ∀ d ∈ clausesOf s cells s.bucketSize, d ≠ c := fun d hd heq => hc (heq ▸ hd)
    refine ⟨fun i hi => ?_, fun a ha => ?_⟩
    · rw [hsize] at hi
      have hbucket := h.bucket_eq i hi
      unfold clausesOf at hbucket hne ⊢
      rw [hcar, hsize]
      refine hbucket.trans (filter_congr fun d hd => ?_)
      rw [hashval, hashval, hclause d (hne d hd), bucketsOf_congr hsize]
    · rw [hsize] at ha
      rw [hcar, hclause _ (hne _ (mem_map_of_mem ha))]
      exact h.clRef_eq a ha
  unfold InterpretedPred.createClauseRecord allocateClause
  cases hfree : s.freeClauses with
  | nil =>
    have hc : s.clauseTop ∉ clausesOf s cells s.bucketSize := fun hin => lt_irrefl _ (h.used _ hin).1
    have hne : ∀ d, d ≠ s.clauseTop → ∀ x, update s.clause s.clauseTop x d = s.clause d :=
      fun d hd x => update_of_ne hd ..
    obtain ⟨hbuckets, hrefs⟩ := @hcongr { s with
      freeClauses := []
      clauseTop := s.clauseTop + 1
      clause := update s.clause s.clauseTop _ } _ hc rfl rfl fun d hd => hne d hd _
    refine ⟨⟨⟨h.chains.shares, h.chains.used, h.chains.free_lt, h.chains.free_nodup⟩, h.outside, hbuckets, h.nodup, hrefs,
      fun d hd => ⟨Nat.lt_succ_of_lt (h.used d hd).1, not_mem_nil⟩, fun _ hd => absurd hd not_mem_nil,
      nodup_nil⟩, hc, Nat.lt_succ_self _, not_mem_nil, rfl, rfl, rfl, rfl, rfl, ⟨_, update_self ..⟩,
      fun d hd => hne d hd _⟩
  | cons c free =>
    have hnodup := h.free_nodup
    rw [hfree, nodup_cons] at hnodup
    have hcin : c ∈ s.freeClauses := hfree ▸ mem_cons_self
    have hc : c ∉ clausesOf s cells s.bucketSize := fun hin => (h.used _ hin).2 hcin
    have hne : ∀ d, d ≠ c → ∀ x, update s.clause c x d = s.clause d :=
      fun d hd x => update_of_ne hd ..
    have hsub : ∀ d ∈ free, d ∈ s.freeClauses := fun d hd => hfree ▸ mem_cons_of_mem c hd
    obtain ⟨hbuckets, hrefs⟩ := @hcongr { s with
      freeClauses := free
      clause := update s.clause c _ } _ hc rfl rfl fun d hd => hne d hd _
    refine ⟨⟨⟨h.chains.shares, h.chains.used, h.chains.free_lt, h.chains.free_nodup⟩, h.outside, hbuckets, h.nodup, hrefs,
      fun d hd => ⟨(h.used d hd).1, fun hin => (h.used d hd).2 (hsub d hin)⟩, fun d hd => h.free_lt d (hsub d hd),
      hnodup.2⟩, hc, h.free_lt c hcin, hnodup.1, rfl, rfl, rfl, rfl, rfl, ⟨_, update_self ..⟩,
      fun d hd => hne d hd _⟩

/-- The clause `c` has been asserted at one end of its chains. -/
structure Asserted (listPsc : Sym) (front : Bool) (s : InterpretedPred) (head body : Tm Label ℕ) (cells : ℕ → List ℕ)
    (c : ℕ) (s' : InterpretedPred) (cells' : ℕ → List ℕ) : Prop where
  indexed : Indexed listPsc s' cells'
  inserted : Inserted front c (s.bucketsOf (hashval listPsc s' c) ++ [s.bucketSize]) s cells s' cells'
  fresh : c ∉ clausesOf s cells s.bucketSize
  bucketSize : s'.bucketSize = s.bucketSize
  timeStamp : s'.timeStamp = s.timeStamp
  refCount : s'.refCount = s.refCount
  retrCount : s'.retrCount = s.retrCount
  clause_self : ∃ a, s'.clause c = ⟨a, (numberVarCopyToParea ⟨fun _ => none, 1⟩ head).1,
    (numberVarCopyToParea (numberVarCopyToParea ⟨fun _ => none, 1⟩ head).2 body).1, s.timeStamp, none⟩
  clause_ne : ∀ d, d ≠ c → s'.clause d = s.clause d

theorem NewClause.insert (front : Bool) {head body : Tm Label ℕ} {c : ℕ} {t : InterpretedPred}
    (h : NewClause listPsc s head body cells c t) :
    ∃ s' cells', (do
        let r ← t.assertIntoBuckets front c (t.bucketsOf (hashvalInAssert listPsc (t.clause c)))
        let (a, r) ← r.assertClauseRecord front r.bucketSize c
        some { r with clause := update r.clause c { r.clause c with clRef := a } }) = some s' ∧
      Asserted listPsc front s head body cells c s' cells' := by
  obtain ⟨r, rcells, hr, hsame, hins⟩ := h.indexed.chains.assertIntoBuckets front c
    (nodup_bucketsOf t (hashvalInAssert listPsc (t.clause c)))
  obtain ⟨a, q, cells', hq, hsame', hins', hlast, hcar⟩ := hins.after.insert front r.bucketSize c
  have hall := hins.append hins' fun i hi hin => by
    rw [mem_singleton.1 hin, hsame.bucketSize, mem_bucketsOf] at hi
    exact lt_irrefl _ hi.1
  have hsize : r.bucketSize = s.bucketSize := hsame.bucketSize.trans h.bucketSize
  rw [hsize] at hall
  have hclause : q.clause = t.clause := hsame'.clause.trans hsame.clause
  set u : InterpretedPred := { q with clause := update q.clause c { q.clause c with clRef := a } } with hu
  have hself : u.clause c = { t.clause c with clRef := a } := by
    rw [hu]
    simp only [update_self, hclause]
  have hne : ∀ d, d ≠ c → u.clause d = t.clause d := fun d hd => by
    rw [hu]
    simp only [update_of_ne hd, hclause]
  have hhash : ∀ d, hashval listPsc u d = hashval listPsc t d := fun d => by
    unfold hashval
    by_cases hd : d = c
    · rw [hd, hself]
      rfl
    · rw [hne d hd]
  have husize : u.bucketSize = s.bucketSize := (hsame'.bucketSize.trans hsame.bucketSize).trans h.bucketSize
  have hbuckets : t.bucketsOf (hashvalInAssert listPsc (t.clause c)) = s.bucketsOf (hashval listPsc u c) := by
    rw [hhash, bucketsOf_congr h.bucketSize]
    rfl
  rw [hbuckets] at hall
  -- the clauses of the chains: those of before, and the new one where it belongs
  have hrow : ∀ i, clausesOf u cells' i = if i ∈ s.bucketsOf (hashval listPsc u c) ++ [s.bucketSize] then
      insertAt front c (clausesOf t cells i) else clausesOf t cells i := fun i => hall.map_car i
  have hfresh : c ∉ clausesOf t cells t.bucketSize := by
    have hold := h.fresh
    unfold clausesOf at hold ⊢
    rw [h.car, h.bucketSize]
    exact hold
  have hfull : clausesOf u cells' u.bucketSize = insertAt front c (clausesOf t cells t.bucketSize) := by
    rw [hrow, husize, if_pos (by simp), h.bucketSize]
  have hmem : ∀ i, i < s.bucketSize →
      (i ∈ s.bucketsOf (hashval listPsc u c) ++ [s.bucketSize] ↔ i ∈ s.bucketsOf (hashval listPsc u c)) := fun i hi => by
    rw [mem_append, mem_singleton]
    exact or_iff_left hi.ne
  refine ⟨u, cells', ?_, ⟨⟨hall.after.shares, hall.after.used, hall.after.free_lt, hall.after.free_nodup⟩, fun i hi => ?_,
    fun i hi => ?_, ?_, fun b hb => ?_, fun d hd => ?_, fun d hd => ?_, ?_⟩,
    ⟨⟨hall.after.shares, hall.after.used, hall.after.free_lt, hall.after.free_nodup⟩, fun i hi => hall.hit i hi, hall.miss,
      fun i b hb => (hall.car_eq i b hb).trans (congrFun h.car b)⟩, h.fresh, husize, ?_, ?_, ?_, ?_, fun d hd => ?_⟩
  · rw [hr, Option.bind_eq_bind, Option.bind_some]
    simp only [hq, Option.bind_eq_bind, Option.bind_some]
    rfl
  · rw [husize] at hi
    have hnot : i ∉ s.bucketsOf (hashval listPsc u c) ++ [s.bucketSize] := fun hin => by
      rw [mem_append, mem_singleton, mem_bucketsOf] at hin
      exact hin.elim (fun hin => absurd hin.1 (Nat.not_lt.2 hi.le)) hi.ne'
    rw [hall.miss i hnot]
    exact h.indexed.outside i (h.bucketSize.symm ▸ hi)
  · rw [hfull, filter_insertAt, hrow]
    rw [husize] at hi
    have hbucket := h.indexed.bucket_eq i (h.bucketSize.symm ▸ hi)
    have hfilter : ((clausesOf t cells t.bucketSize).filter fun d => i ∈ u.bucketsOf (hashval listPsc u d)) =
        clausesOf t cells i := by
      rw [hbucket]
      apply filter_congr
      intro d _
      rw [hhash, bucketsOf_congr (husize.trans h.bucketSize.symm)]
    rw [hfilter]
    simp only [hmem i hi, bucketsOf_congr husize, decide_eq_true_eq]
  · rw [hfull, nodup_insertAt]
    exact ⟨hfresh, h.indexed.nodup⟩
  · rw [husize] at hb
    rw [hsize] at hlast
    have hold := hins.miss s.bucketSize fun hin => by
      rw [mem_bucketsOf, h.bucketSize] at hin
      exact lt_irrefl _ hin.1
    rw [hlast, hold, mem_insertAt] at hb
    rcases hb with rfl | hb
    · rw [show u.car b = c from hcar, hself]
    · have hcarb : u.car b = t.car b := hall.car_eq _ b hb
      rw [← h.bucketSize] at hb
      have hbc : t.car b ≠ c := fun heq => hfresh (heq ▸ mem_map_of_mem hb)
      rw [hcarb, hne _ hbc]
      exact h.indexed.clRef_eq b hb
  · have htop : u.clauseTop = t.clauseTop := hsame'.clauseTop.trans hsame.clauseTop
    have hfree : u.freeClauses = t.freeClauses := hsame'.freeClauses.trans hsame.freeClauses
    rw [hfull, mem_insertAt] at hd
    rw [htop, hfree]
    rcases hd with rfl | hd
    · exact ⟨h.lt_top, h.not_free⟩
    · exact h.indexed.used d hd
  · have htop : u.clauseTop = t.clauseTop := hsame'.clauseTop.trans hsame.clauseTop
    rw [htop]
    exact h.indexed.free_lt d ((hsame'.freeClauses.trans hsame.freeClauses) ▸ hd)
  · exact (hsame'.freeClauses.trans hsame.freeClauses) ▸ h.indexed.free_nodup
  · exact (hsame'.timeStamp.trans hsame.timeStamp).trans h.timeStamp
  · exact (hsame'.refCount.trans hsame.refCount).trans h.refCount
  · exact (hsame'.retrCount.trans hsame.retrCount).trans h.retrCount
  · obtain ⟨b, hb⟩ := h.clause_self
    exact ⟨a, by rw [hself, hb]⟩
  · rw [hne d hd, h.clause_ne d hd]

theorem Indexed.assert (h : Indexed listPsc s cells) (front : Bool) (head body : Tm Label ℕ) :
    ∃ s' cells', s.assertInterpretedPred listPsc front head body = some s' ∧
      Asserted listPsc front s head body cells s.allocateClause.1 s' cells' := by
  have hcount : Indexed listPsc { s with clCount := s.clCount + 1 } cells :=
    ⟨⟨h.chains.shares, h.chains.used, h.chains.free_lt, h.chains.free_nodup⟩, h.outside, h.bucket_eq, h.nodup, h.clRef_eq,
      h.used, h.free_lt, h.free_nodup⟩
  obtain ⟨s', cells', hassert, hasserted⟩ := (hcount.createClauseRecord head body).insert front
  have hclause : ({ s with clCount := s.clCount + 1 }.createClauseRecord head body).1 = s.allocateClause.1 := by
    unfold InterpretedPred.createClauseRecord allocateClause
    cases s.freeClauses <;> rfl
  rw [hclause] at hasserted
  exact ⟨s', cells', hassert, hasserted.1, ⟨hasserted.2.1, hasserted.2.2, hasserted.2.3, hasserted.2.4⟩, hasserted.3,
    hasserted.4, hasserted.5, hasserted.6, hasserted.7, hasserted.8, hasserted.9⟩

end InterpretedPred

end Picat
