import Mathlib.Data.Nat.ModEq
import Picat.Assert.ClauseRehash

/-!
# The index of a dynamic predicate over a run

* `indexRun_buckets` : every bucket is the part of the program with its hash values, after every run.
-/

namespace Picat

open Chains DoublyLinked Variants InterpretedPred

namespace InterpretedPred

variable {listPsc : Sym} {s s' : InterpretedPred} {cells : ℕ → List ℕ} {c : ℕ}

/-! ## The operations on an index -/

theorem Indexed.withCounts (h : Indexed listPsc s cells) (refCount retrCount timeStamp clCount : ℕ) :
    Indexed listPsc ⟨refCount, retrCount, clCount, timeStamp, s.bucketSize, s.hashtable, s.car, s.links, s.freeCells,
      s.cellTop, s.clause, s.freeClauses, s.clauseTop⟩ cells :=
  ⟨⟨h.chains.shares, h.chains.used, h.chains.free_lt, h.chains.free_nodup⟩, h.outside, h.bucket_eq, h.nodup, h.clRef_eq,
    h.used, h.free_lt, h.free_nodup⟩

theorem Asserted.clausesOf_eq {front : Bool} {t : InterpretedPred} {tcells cells' : ℕ → List ℕ} {head body : Tm Label ℕ}
    (h : Asserted listPsc front t head body tcells c s' cells') :
    clausesOf s' cells' s'.bucketSize = insertAt front c (clausesOf t tcells t.bucketSize) := by
  rw [h.bucketSize]
  exact (h.inserted.map_car t.bucketSize).trans (if_pos (by simp))

theorem bASSERT_eq (s : InterpretedPred) (front : Bool) (head body : Tm Label ℕ) (malloc : Bool) :
    s.bASSERT listPsc front head body malloc =
      (if s.clCount > s.bucketSize then s.rehashInterpretedPred listPsc malloc else some s).bind fun r =>
        (if r.refCount ≠ 0 ∨ r.retrCount ≠ 0 then { r with timeStamp := r.timeStamp + 1 } else r).assertInterpretedPred
          listPsc front head body := by
  unfold bASSERT
  split_ifs <;> rfl

/-- A larger table, if there are more clauses than buckets, and then a new time, if there are open calls. -/
theorem Indexed.assertClause (h : Indexed listPsc s cells) (front : Bool) (head body : Tm Label ℕ) (malloc : Bool) :
    ∃ s' cells', s.bASSERT listPsc front head body malloc = some s' ∧ Indexed listPsc s' cells' ∧
      clausesOf s' cells' s'.bucketSize = insertAt front s.allocateClause.1 (clausesOf s cells s.bucketSize) := by
  obtain ⟨r, rcells, hr, hre⟩ : ∃ r rcells, (if s.clCount > s.bucketSize then s.rehashInterpretedPred listPsc malloc
      else some s) = some r ∧ Rehashed listPsc s cells r rcells := by
    split_ifs with hfull
    · obtain ⟨r, rcells, hr, hre, -⟩ := h.rehash malloc
      exact ⟨r, rcells, hr, hre⟩
    · exact ⟨s, cells, rfl, h, rfl, fun _ _ => rfl, rfl, rfl, rfl, rfl, rfl, rfl, rfl⟩
  obtain ⟨t, ht, htindexed, htclause, htsize⟩ : ∃ t, (if r.refCount ≠ 0 ∨ r.retrCount ≠ 0 then
      { r with timeStamp := r.timeStamp + 1 } else r) = t ∧ Indexed listPsc t rcells ∧
      t.allocateClause.1 = s.allocateClause.1 ∧ clausesOf t rcells t.bucketSize = clausesOf s cells s.bucketSize := by
    have hclause : r.allocateClause.1 = s.allocateClause.1 := by
      unfold allocateClause
      rw [hre.freeClauses, hre.clauseTop]
      cases s.freeClauses <;> rfl
    split_ifs with hopen
    · refine ⟨_, rfl, hre.indexed.withCounts r.refCount r.retrCount (r.timeStamp + 1) r.clCount, ?_, hre.clausesOf_eq⟩
      rw [← hclause]
      unfold allocateClause
      cases r.freeClauses <;> rfl
    · exact ⟨_, rfl, hre.indexed, hclause, hre.clausesOf_eq⟩
  obtain ⟨s', cells', hs', hasserted⟩ := htindexed.assert front head body
  refine ⟨s', cells', ?_, hasserted.indexed, ?_⟩
  · rw [bASSERT_eq, hr, Option.bind_some, ht, hs']
  · rw [hasserted.clausesOf_eq, htclause, htsize]

/-- The clause may be seen by open calls, or has been removed before. -/
def keeps (s : InterpretedPred) (c : ℕ) : Prop :=
  (s.clause c).deathTimeStamp ≠ none ∨ s.refCount ≠ 0 ∨ s.retrCount > 1

instance (s : InterpretedPred) (c : ℕ) : Decidable (s.keeps c) := inferInstanceAs (Decidable (_ ∨ _))

theorem bREMOVECLAUSE_of_not_keeps (h : ¬s.keeps c) :
    s.bREMOVECLAUSE listPsc c = { s with clCount := s.clCount - 1 }.locateAndFreeClauseRecord listPsc c ∧
      s.isOnlyRetract = true := by
  obtain ⟨hdead, hopen⟩ := not_or.1 h
  refine ⟨?_, ?_⟩
  · rw [bREMOVECLAUSE, if_neg hdead]
    simp only [if_neg hopen]
  · rw [not_or, not_not, not_lt] at hopen
    exact decide_eq_true hopen

theorem Indexed.bREMOVECLAUSE_of_keeps (h : Indexed listPsc s cells) (hkeeps : s.keeps c) :
    ∃ s', s.bREMOVECLAUSE listPsc c = some s' ∧ Indexed listPsc s' cells ∧ s'.car = s.car ∧
      s'.bucketSize = s.bucketSize := by
  unfold bREMOVECLAUSE
  by_cases hdead : (s.clause c).deathTimeStamp ≠ none
  · rw [if_pos hdead]
    exact ⟨s, rfl, h, rfl, rfl⟩
  · rw [if_neg hdead]
    simp only [if_pos (hkeeps.resolve_left hdead)]
    exact ⟨_, rfl, h.bury c (s.clCount - 1) (s.timeStamp + 1), rfl, rfl⟩

section
variable (h : Indexed listPsc s cells) (hc : c ∈ clausesOf s cells s.bucketSize)
include h hc

theorem Indexed.removeClause (hremove : s.bREMOVECLAUSE listPsc c = some s') :
    ∃ cells', Indexed listPsc s' cells' ∧ clausesOf s' cells' s'.bucketSize =
      if s.keeps c then clausesOf s cells s.bucketSize else (clausesOf s cells s.bucketSize).filter fun d => d ≠ c := by
  by_cases hkeeps : s.keeps c
  · obtain ⟨r, hr, hindexed, hcar, hsize⟩ := h.bREMOVECLAUSE_of_keeps hkeeps
    obtain rfl := Option.some.inj (hremove.symm.trans hr)
    refine ⟨cells, hindexed, ?_⟩
    rw [if_pos hkeeps, hsize, clausesOf, hcar]
    rfl
  · obtain ⟨heq, honly⟩ := @bREMOVECLAUSE_of_not_keeps listPsc s c hkeeps
    have hcounts := h.withCounts s.refCount s.retrCount s.timeStamp (s.clCount - 1)
    rw [heq] at hremove
    by_cases hsize : hashval listPsc s c = 0 ∨ s.bucketSize ≠ 0
    · obtain ⟨r, cells', hr, hret⟩ := hcounts.locateAndFree honly hc hsize
      obtain rfl := Option.some.inj (hremove.symm.trans hr)
      refine ⟨cells', hret.indexed, ?_⟩
      rw [if_neg hkeeps, hret.clausesOf_eq, hret.bucketSize]
      rfl
    · rw [not_or, not_not] at hsize
      have hnone := hcounts.locateAndFree_none hc hsize.1 hsize.2
      exact absurd (hremove.symm.trans hnone) (Option.some_ne_none s')

theorem Indexed.removeClause_isSome (hsize : s.bucketSize ≠ 0) : ∃ s', s.bREMOVECLAUSE listPsc c = some s' := by
  by_cases hkeeps : s.keeps c
  · obtain ⟨s', hs', -⟩ := h.bREMOVECLAUSE_of_keeps hkeeps
    exact ⟨s', hs'⟩
  · obtain ⟨heq, honly⟩ := @bREMOVECLAUSE_of_not_keeps listPsc s c hkeeps
    have hcounts := h.withCounts s.refCount s.retrCount s.timeStamp (s.clCount - 1)
    obtain ⟨s', cells', hs', -⟩ := hcounts.locateAndFree honly hc (.inr hsize)
    exact ⟨s', heq.trans hs'⟩

end

/-! ## The chain of a call -/

theorem chainOf_le (s : InterpretedPred) (goal : Tm Label ℕ) : s.chainOf listPsc goal ≤ s.bucketSize := by
  unfold chainOf
  split
  · simp only
    split_ifs with hi
    · exact (Nat.mod_lt _ (Nat.pos_of_ne_zero hi.1)).le
    · exact le_rfl
  · exact le_rfl

def firstSymbol : Tm Label ℕ → Option Label
  | .app (.str _) (.app f _ :: _) => some f
  | _ => none

/-- The first arguments have the same symbol, or one of them is a variable. -/
def Compatible (head goal : Tm Label ℕ) : Prop :=
  firstSymbol head = none ∨ firstSymbol goal = none ∨ firstSymbol head = firstSymbol goal

instance (head goal : Tm Label ℕ) : Decidable (Compatible head goal) := inferInstanceAs (Decidable (_ ∨ _ ∨ _))

theorem compatible_of_unifiable {head goal : Tm Label ℕ} (h : Unifiable head goal) : Compatible head goal := by
  unfold Compatible
  by_cases hhead : firstSymbol head = none
  · exact .inl hhead
  · by_cases hgoal : firstSymbol goal = none
    · exact .inr (.inl hgoal)
    · refine .inr (.inr ?_)
      unfold firstSymbol at hhead hgoal ⊢
      split at hhead
      case h_2 => exact absurd rfl hhead
      case h_1 sym f as args =>
          split at hgoal
          case h_2 => exact absurd rfl hgoal
          case h_1 sym' g bs args' => rw [h.first_arg.2.symbol]

theorem hashvalInAssert_eq_zero {clause : InterpretedClause} (h : firstSymbol clause.head = none) :
    hashvalInAssert listPsc clause = 0 := by
  unfold hashvalInAssert
  split
  case h_2 => rfl
  case h_1 sym arg1 args hhead =>
      rw [hhead] at h
      cases arg1 with
      | var x => rfl
      | app f as => exact absurd h (Option.some_ne_none f)

theorem hashvalInAssert_eq {clause : InterpretedClause} {f : Label} (h : firstSymbol clause.head = some f) :
    hashvalInAssert listPsc clause = bpHashCode1 listPsc (.app f []) := by
  unfold firstSymbol at h
  split at h
  case h_2 => exact absurd h.symm (Option.some_ne_none f)
  case h_1 sym g as args hhead =>
      rw [Option.some.injEq] at h
      rw [hashvalInAssert, hhead, ← h]
      cases g <;> rfl

theorem chainOf_eq (s : InterpretedPred) (goal : Tm Label ℕ) :
    s.chainOf listPsc goal = s.bucketSize ∨ ∃ f, firstSymbol goal = some f ∧ s.bucketSize ≠ 0 ∧
      s.chainOf listPsc goal = bpHashCode1 listPsc (.app f []) % s.bucketSize := by
  unfold chainOf
  split
  case h_2 => exact .inl rfl
  case h_1 sym arg1 args =>
      simp only
      split_ifs with hi
      · cases arg1 with
        | var x => exact absurd rfl hi.2
        | app f as => exact .inr ⟨f, rfl, hi.1, by cases f <;> rfl⟩
      · exact .inl rfl

theorem chainOf_of_compatible {goal : Tm Label ℕ} {clause : InterpretedClause} (h : Compatible clause.head goal) :
    s.chainOf listPsc goal = s.bucketSize ∨ s.chainOf listPsc goal ∈ s.bucketsOf (hashvalInAssert listPsc clause) := by
  rcases @chainOf_eq listPsc s goal with hlast | ⟨f, hf, hsize, hchain⟩
  · exact .inl hlast
  · refine .inr (mem_bucketsOf.2 ⟨hchain ▸ Nat.mod_lt _ (Nat.pos_of_ne_zero hsize), ?_⟩)
    rcases h with hhead | hgoal | hsame
    · exact .inl (hashvalInAssert_eq_zero hhead)
    · rw [hf] at hgoal
      exact absurd hgoal (Option.some_ne_none f)
    · rw [hf] at hsame
      rw [hashvalInAssert_eq hsame, hchain]
      exact .inr rfl

end InterpretedPred

/-! ## Runs -/

/-- The clauses, among them removed ones that an open call may see, and the predicate; calls may begin and end. -/
inductive IndexRun (listPsc : Sym) (size : ℕ) : List ℕ → InterpretedPred → Prop
  | start : IndexRun listPsc size [] (new size)
  | asserta {prog : List ℕ} {s s' : InterpretedPred} {head body : Tm Label ℕ} {malloc : Bool}
      (h : IndexRun listPsc size prog s) (hassert : s.bASSERTA listPsc head body malloc = some s') :
      IndexRun listPsc size (s.allocateClause.1 :: prog) s'
  | assertz {prog : List ℕ} {s s' : InterpretedPred} {head body : Tm Label ℕ} {malloc : Bool}
      (h : IndexRun listPsc size prog s) (hassert : s.bASSERTZ listPsc head body malloc = some s') :
      IndexRun listPsc size (prog ++ [s.allocateClause.1]) s'
  | retract {prog : List ℕ} {s s' : InterpretedPred} {c : ℕ} (h : IndexRun listPsc size prog s) (hc : c ∈ prog)
      (hremove : s.bREMOVECLAUSE listPsc c = some s') :
      IndexRun listPsc size (if s.keeps c then prog else prog.filter fun d => d ≠ c) s'
  | rehash {prog : List ℕ} {s s' : InterpretedPred} {malloc : Bool} (h : IndexRun listPsc size prog s)
      (hrehash : s.rehashInterpretedPred listPsc malloc = some s') : IndexRun listPsc size prog s'
  | counts {prog : List ℕ} {s : InterpretedPred} (h : IndexRun listPsc size prog s) (refCount retrCount : ℕ) :
      IndexRun listPsc size prog { s with refCount := refCount, retrCount := retrCount }

theorem IndexRun.indexed {listPsc : Sym} {size : ℕ} {prog : List ℕ} {s : InterpretedPred}
    (h : IndexRun listPsc size prog s) :
    ∃ cells, Indexed listPsc s cells ∧ clausesOf s cells s.bucketSize = prog := by
  induction h with
  | start => exact ⟨fun _ => [], indexed_new listPsc size, rfl⟩
  | @asserta prog s s' head body malloc h hassert ih =>
    obtain ⟨cells, hindexed, hprog⟩ := ih
    obtain ⟨r, cells', hr, hindexed', hclauses⟩ := hindexed.assertClause true head body malloc
    obtain rfl := Option.some.inj (hassert.symm.trans hr)
    exact ⟨cells', hindexed', by rw [hclauses, hprog]; rfl⟩
  | @assertz prog s s' head body malloc h hassert ih =>
    obtain ⟨cells, hindexed, hprog⟩ := ih
    obtain ⟨r, cells', hr, hindexed', hclauses⟩ := hindexed.assertClause false head body malloc
    obtain rfl := Option.some.inj (hassert.symm.trans hr)
    exact ⟨cells', hindexed', by rw [hclauses, hprog]; rfl⟩
  | @retract prog s s' c h hc hremove ih =>
    obtain ⟨cells, hindexed, hprog⟩ := ih
    rw [← hprog] at hc
    obtain ⟨cells', hindexed', hclauses⟩ := hindexed.removeClause hc hremove
    exact ⟨cells', hindexed', by rw [hclauses, hprog]⟩
  | @rehash prog s s' malloc h hrehash ih =>
    obtain ⟨cells, hindexed, hprog⟩ := ih
    obtain ⟨r, cells', hr, hre, -⟩ := hindexed.rehash malloc
    obtain rfl := Option.some.inj (hrehash.symm.trans hr)
    exact ⟨cells', hre.indexed, hre.clausesOf_eq.trans hprog⟩
  | @counts prog s h refCount retrCount ih =>
    obtain ⟨cells, hindexed, hprog⟩ := ih
    exact ⟨cells, hindexed.withCounts refCount retrCount s.timeStamp s.clCount, hprog⟩

/-- The chains of a run's index: that of all clauses is the program, and each bucket is the part of it whose hash values
are 0 or lead there. A call goes through all clauses whose heads may unify with it, in the order of the program. New
clauses can always be asserted, and clauses be removed when there is a bucket. -/
theorem indexRun_buckets {listPsc : Sym} {size : ℕ} {prog : List ℕ} {s : InterpretedPred}
    (h : IndexRun listPsc size prog s) :
    ∃ cells : ℕ → List ℕ, (∀ i ≤ s.bucketSize, Chain id s.links.next (s.hashtable i).list (cells i)) ∧
      (cells s.bucketSize).map s.car = prog ∧
      (∀ i < s.bucketSize, (cells i).map s.car =
        prog.filter fun c => hashval listPsc s c = 0 ∨ hashval listPsc s c ≡ i [MOD s.bucketSize]) ∧
      (∀ goal : Tm Label ℕ, s.chainOf listPsc goal ≤ s.bucketSize ∧
        (s.bGETCLAUSES listPsc goal).list = (s.hashtable (s.chainOf listPsc goal)).list ∧
        List.Sublist ((cells (s.chainOf listPsc goal)).map s.car) prog ∧
        ∀ c ∈ prog, Unifiable (s.clause c).head goal → c ∈ (cells (s.chainOf listPsc goal)).map s.car) ∧
      (∀ (front : Bool) (head body : Tm Label ℕ) (malloc : Bool), ∃ s', s.bASSERT listPsc front head body malloc = some s') ∧
      (s.bucketSize ≠ 0 → ∀ c ∈ prog, ∃ s', s.bREMOVECLAUSE listPsc c = some s') := by
  obtain ⟨cells, hindexed, hprog⟩ := h.indexed
  have hbuckets : ∀ i < s.bucketSize, clausesOf s cells i = prog.filter fun c => i ∈ s.bucketsOf (hashval listPsc s c) :=
    fun i hi => by rw [hindexed.bucket_eq i hi, hprog]
  refine ⟨cells, fun i _ => (hindexed.chains.shares.holds i).chain, hprog, fun i hi => ?_, fun goal => ?_,
    fun front head body malloc => ?_, fun hsize c hc => ?_⟩
  · refine (hbuckets i hi).trans (List.filter_congr fun c _ => ?_)
    rw [decide_eq_decide, mem_bucketsOf, Nat.ModEq, Nat.mod_eq_of_lt hi]
    exact and_iff_right hi
  · have hle := @chainOf_le listPsc s goal
    refine ⟨hle, rfl, ?_, fun c hc hunif => ?_⟩
    · rcases hle.lt_or_eq with hlt | heq
      · have hrow := hbuckets _ hlt
        unfold clausesOf at hrow
        rw [hrow]
        exact List.filter_sublist
      · rw [heq, ← hprog]
        exact List.Sublist.refl _
    · rcases @chainOf_of_compatible listPsc s goal (s.clause c) (compatible_of_unifiable hunif) with heq | hmem
      · rw [heq]
        rw [← hprog] at hc
        exact hc
      · have hrow := hbuckets _ (mem_bucketsOf.1 hmem).1
        unfold clausesOf at hrow
        rw [hrow]
        exact List.mem_filter.2 ⟨hc, decide_eq_true hmem⟩
  · obtain ⟨s', -, hs', -⟩ := hindexed.assertClause front head body malloc
    exact ⟨s', hs'⟩
  · exact hindexed.removeClause_isSome (hprog.symm ▸ hc) hsize

/-- One fact asserted, in a table with seven buckets: the chain of the calls with its argument has it. -/
theorem indexRun_buckets_one_fact : ∃ s : InterpretedPred, IndexRun 0 7 [0] s ∧
      ∃ cells : ℕ → List ℕ, Chain id s.links.next (s.hashtable 7).list (cells 7) ∧ (cells 7).map s.car = [0] := by
  have hfact : ((new 7).bASSERTZ 0 (.app (.str 8) [.app (.atm 21) []]) (.app (.atm 16) []) true).isSome = true := rfl
  obtain ⟨s, hs⟩ := Option.isSome_iff_exists.1 hfact
  have hsize : s.bucketSize = 7 := by
    cases hs
    rfl
  have hrun : IndexRun 0 7 [0] s := .assertz .start hs
  obtain ⟨cells, hchains, hprog, -⟩ := indexRun_buckets hrun
  rw [hsize] at hchains hprog
  exact ⟨s, hrun, cells, hchains 7 le_rfl, hprog⟩

end Picat
