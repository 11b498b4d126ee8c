import Mathlib.Data.List.NodupEquivFin
import Mathlib.Data.List.TakeWhile
import Mathlib.Order.WellFounded
import Picat.Lib.HashChains
import Picat.Tabling.Identical

/-!
# The arguments of calls and answers

* `Lists.addTableAnswer` : an answer is added unless it is there.
-/

namespace Picat

open Variants Function List

def numberVarCopyAnswerArgsToTableArea : List HeapTerm → CopiedArgs
  | [] => ⟨[], 0, true, []⟩
  | t :: ts =>
    let first := numberVarCopyToTableArea [] t
    let rest := copyArgs first.vars first.hcode ts
    ⟨first.term :: rest.terms, rest.hcode &&& hashBits, first.ground && rest.ground, rest.vars⟩

def numberVarCopySubgoalArgsToTableArea (hcode0 : ℕ) : List HeapTerm → CopiedArgs
  | [] => ⟨[], hcode0, true, []⟩
  | t :: ts =>
    let first := numberVarCopyToTableArea [] t
    let rest := copyArgs first.vars (hcode0 + first.hcode) ts
    ⟨first.term :: rest.terms, rest.hcode &&& hashBits, first.ground && rest.ground, rest.vars⟩

def hashvalOfTabledAnswer : List TabledTerm → ℕ
  | [] => 0
  | t :: ts => TabledTerm.mixArgs t.hashvalOfNumberedTerm ts &&& hashBits

def hashvalOfTabledSubgoal (sym : Sym) : List TabledTerm → ℕ
  | [] => wordHash sym
  | t :: ts => TabledTerm.mixArgs (wordHash sym + t.hashvalOfNumberedTerm) ts &&& hashBits

def answerTerms (ts : List HeapTerm) : List TabledTerm := (numberVarCopyAnswerArgsToTableArea ts).terms

theorem copyArgs_terms (vs : List ℕ) (h h' : ℕ) (ts : List HeapTerm) :
    (copyArgs vs h ts).terms = (copyArgs vs h' ts).terms ∧ (copyArgs vs h ts).vars = (copyArgs vs h' ts).vars := by
  induction ts generalizing vs h h' with
  | nil => exact ⟨rfl, rfl⟩
  | cons t ts ih =>
    obtain ⟨hterms, hvars⟩ := ih (numberVarCopyToTableArea vs t).vars
      (mixHash h (numberVarCopyToTableArea vs t).hcode) (mixHash h' (numberVarCopyToTableArea vs t).hcode)
    exact ⟨congrArg (List.cons _) hterms, hvars⟩

theorem answerTerms_eq (ts : List HeapTerm) : answerTerms ts = (copyArgs [] 0 ts).terms := by
  cases ts with
  | nil => rfl
  | cons t ts => exact congrArg (List.cons _) (copyArgs_terms _ _ _ ts).1

theorem subgoalTerms_eq (hcode0 : ℕ) (ts : List HeapTerm) :
    (numberVarCopySubgoalArgsToTableArea hcode0 ts).terms = answerTerms ts := by
  cases ts with
  | nil => rfl
  | cons t ts => exact congrArg (List.cons _) (copyArgs_terms _ _ _ ts).1

theorem copyArgs_length (vs : List ℕ) (h : ℕ) (ts : List HeapTerm) : (copyArgs vs h ts).terms.length = ts.length := by
  induction ts generalizing vs h with
  | nil => rfl
  | cons t ts ih => exact congrArg (· + 1) (ih _ _)

@[simp] theorem length_answerTerms (ts : List HeapTerm) : (answerTerms ts).length = ts.length := by
  rw [answerTerms_eq, copyArgs_length]

theorem answerTerms_concat_var (ts : List HeapTerm) (x : ℕ) :
    ∃ n, answerTerms (ts ++ [.var x]) = answerTerms ts ++ [.var n] := by
  have hcopy : ∀ vs h, ∃ n, (copyArgs vs h (ts ++ [.var x])).terms = (copyArgs vs h ts).terms ++ [.var n] := by
    induction ts with
    | nil =>
      intro vs h
      by_cases hx : x ∈ vs
      · exact ⟨vs.idxOf x, by simp [copyArgs, numberVarCopyToTableArea, hx]⟩
      · exact ⟨vs.length, by simp [copyArgs, numberVarCopyToTableArea, hx]⟩
    | cons t ts ih =>
      intro vs h
      obtain ⟨n, hn⟩ := ih (numberVarCopyToTableArea vs t).vars (mixHash h (numberVarCopyToTableArea vs t).hcode)
      exact ⟨n, congrArg (List.cons _) hn⟩
  rw [answerTerms_eq, answerTerms_eq]
  exact hcopy [] 0

theorem hashvalOfTabledSubgoal_concat (sym : Sym) (ts : List TabledTerm) {t u : TabledTerm}
    (h : t.hashvalOfNumberedTerm = u.hashvalOfNumberedTerm) :
    hashvalOfTabledSubgoal sym (ts ++ [t]) = hashvalOfTabledSubgoal sym (ts ++ [u]) := by
  cases ts with
  | nil => simp only [nil_append, hashvalOfTabledSubgoal, h]
  | cons first ts =>
    simp only [cons_append, hashvalOfTabledSubgoal, TabledTerm.mixArgs, foldl_append, foldl_cons, foldl_nil, h]

theorem answerTerms_sealed (ts : List HeapTerm) : ∀ t ∈ answerTerms ts, t.Sealed := by
  rw [answerTerms_eq]
  exact (copyArgs_spec [] 0 ts).isSealed

theorem trees_answerTerms (ts : List HeapTerm) : TabledTerm.trees (answerTerms ts) = canon (HeapTerm.trees ts) := by
  have h := copyArgs_spec [] 0 ts
  rw [answerTerms_eq, h.tree_eq, h.vars_eq, canon]

theorem answerTerms_eq_iff {ts us : List HeapTerm} :
    answerTerms ts = answerTerms us ↔ Variant (HeapTerm.trees ts) (HeapTerm.trees us) := by
  rw [variant_iff_canon, ← trees_answerTerms, ← trees_answerTerms]
  refine ⟨fun h => by rw [h], fun h => ?_⟩
  rw [TabledTerm.trees_eq_map, TabledTerm.trees_eq_map] at h
  exact TabledTerm.eq_of_map_tree
    (fun t ht u hu => (answerTerms_sealed ts t ht).eq_of_tree (answerTerms_sealed us u hu)) h

theorem answerHcode_eq (ts : List HeapTerm) :
    (numberVarCopyAnswerArgsToTableArea ts).hcode = hashvalOfTabledAnswer (answerTerms ts) := by
  cases ts with
  | nil => rfl
  | cons t ts =>
    have hfirst := copy_spec [] t
    have hrest := copyArgs_spec (numberVarCopyToTableArea [] t).vars (numberVarCopyToTableArea [] t).hcode ts
    rw [numberVarCopyAnswerArgsToTableArea, answerTerms, numberVarCopyAnswerArgsToTableArea, hashvalOfTabledAnswer,
      hfirst.hashval_eq, ← hfirst.hcode_eq, hrest.mixArgs_eq, hrest.hcode_eq]

theorem subgoalHcode_eq (sym : Sym) (ts : List HeapTerm) :
    (numberVarCopySubgoalArgsToTableArea (wordHash sym) ts).hcode = hashvalOfTabledSubgoal sym (answerTerms ts) := by
  cases ts with
  | nil => rfl
  | cons t ts =>
    have hfirst := copy_spec [] t
    have hrest := copyArgs_spec (numberVarCopyToTableArea [] t).vars
      (wordHash sym + (numberVarCopyToTableArea [] t).hcode) ts
    have hterms : answerTerms (t :: ts) = (numberVarCopyToTableArea [] t).term ::
        (copyArgs (numberVarCopyToTableArea [] t).vars (wordHash sym + (numberVarCopyToTableArea [] t).hcode) ts).terms :=
      congrArg (List.cons _) (copyArgs_terms _ _ _ ts).1
    rw [numberVarCopySubgoalArgsToTableArea, hterms, hashvalOfTabledSubgoal, hfirst.hashval_eq, ← hfirst.hcode_eq,
      hrest.mixArgs_eq, hrest.hcode_eq]

open Chains

/-! ## Sizes of hash tables -/

/-- The odd numbers that `bp_hsize` tries as divisors. -/
def hsizeDivisors (j : ℕ) : List ℕ := (List.range' 3 14 2).filter (· ≤ j)

/-- No number of the list divides `n`. -/
def AvoidsDivisors (ds : List ℕ) (n : ℕ) : Prop := ∀ i ∈ ds, n % i ≠ 0

instance (ds : List ℕ) (n : ℕ) : Decidable (AvoidsDivisors ds n) := inferInstanceAs (Decidable (∀ i ∈ ds, _))

theorem exists_avoidsDivisors (j temp : ℕ) (hodd : temp % 2 = 1) :
    ∃ k, AvoidsDivisors (hsizeDivisors j) (temp + 2 * k) := by
  let p := (List.range' 3 14 2).prod
  refine ⟨(2 * p * temp + 1 - temp) / 2, fun i hi => ?_⟩
  have hpos : 1 ≤ p := by decide
  have hle : temp ≤ p * temp := Nat.le_mul_of_pos_left temp hpos
  have hval : temp + 2 * ((2 * p * temp + 1 - temp) / 2) = 2 * p * temp + 1 := by
    rw [Nat.mul_assoc]
    omega
  have hmem : i ∈ List.range' 3 14 2 := (mem_filter.1 hi).1
  have hdiv : ∀ i ∈ List.range' 3 14 2, i ∣ p := by decide
  have hdvd : i ∣ 2 * p * temp := Dvd.dvd.mul_right (Dvd.dvd.mul_left (hdiv i hmem) 2) temp
  have h3 : ∀ i ∈ List.range' 3 14 2, 1 < i := by decide
  rw [hval, Nat.add_mod, Nat.mod_eq_zero_of_dvd hdvd, Nat.zero_add, Nat.mod_mod, Nat.mod_eq_of_lt (h3 i hmem)]
  decide

def hsizeStart (numentry : ℕ) : ℕ := if (numentry + 1) % 2 = 0 then numentry + 2 else numentry + 1

theorem hsizeStart_odd (numentry : ℕ) : hsizeStart numentry % 2 = 1 := by
  unfold hsizeStart
  split_ifs <;> omega

def bpHsize (numentry : ℕ) : ℕ :=
  hsizeStart numentry + 2 * Nat.find (exists_avoidsDivisors (min (hsizeStart numentry / 2 + 1) 29) _
    (hsizeStart_odd numentry))

theorem lt_bpHsize (numentry : ℕ) : numentry < bpHsize numentry := by
  have hstart : numentry < hsizeStart numentry := by
    unfold hsizeStart
    split_ifs <;> omega
  exact Nat.lt_add_right _ hstart

/-! ## The table -/

/-- `first`, `last` and the links are numbers of answer records, of which those from `top` on are unused. -/
structure AnswerTable where
  args : ℕ → List TabledTerm
  nextInTable : ℕ → Option ℕ
  chains : Buckets ℕ
  first : ℕ
  last : ℕ
  count : ℕ
  top : ℕ
  /-- `SUBGOAL_ANS_REVISED_BIT` of the subgoal. -/
  revised : Bool

def initAnswerTableBucketSize : ℕ := 7

namespace AnswerTable

def hcode (t : AnswerTable) (a : ℕ) : ℕ := hashvalOfTabledAnswer (t.args a)

/-- `allocateAnswerTable`, around the record of the first answer. -/
def allocateAnswerTable (firstAnswer : List TabledTerm) : AnswerTable where
  args := fun _ => firstAnswer
  nextInTable := fun _ => none
  chains := (⟨initAnswerTableBucketSize, fun _ => none, fun _ => none⟩ : Buckets ℕ).push
    (hashvalOfTabledAnswer firstAnswer % initAnswerTableBucketSize) 0
  first := 0
  last := 0
  count := 1
  top := 1
  revised := true

/-- `expandAnswerTable`, which does nothing when there is no memory for the new buckets. -/
def expandAnswerTable (t : AnswerTable) (malloc : Bool) : Option AnswerTable :=
  if malloc then do
    let chains ← t.chains.rehash t.hcode (bpHsize (3 * t.chains.size)) t.top
    some { t with chains := chains }
  else some t

/-- The record in the bucket of a hash code whose arguments are those of `args`. -/
def lookup (t : AnswerTable) (hcode : ℕ) (args : List TabledTerm) : Option (Option ℕ) :=
  search (fun a => identicalArgs args (t.args a)) t.chains.next t.top (t.chains.head (hcode % t.chains.size))

def pushRecord (t : AnswerTable) (hcode : ℕ) (args : List TabledTerm) : AnswerTable :=
  { t with
    args := update t.args t.top args
    chains := t.chains.push (hcode % t.chains.size) t.top
    top := t.top + 1 }

/-- `expandAnswerTable`, when the table is `full`. -/
def expandIf (t : AnswerTable) (full : Bool) (malloc : Bool) : Option AnswerTable :=
  if full then t.expandAnswerTable malloc else some t

def appendRecord (t : AnswerTable) (hcode : ℕ) (args : List TabledTerm) : AnswerTable :=
  { t.pushRecord hcode args with
    nextInTable := update (update t.nextInTable t.top none) t.last (some t.top)
    last := t.top
    count := t.count + 1 }

def addTableAnswer (t : AnswerTable) (stackArgs : List HeapTerm) (malloc : Bool) : Option (Bool × AnswerTable) := do
  let this := numberVarCopyAnswerArgsToTableArea stackArgs
  match ← t.lookup this.hcode this.terms with
  | some _ => some (false, t)
  | none =>
    let t := t.appendRecord this.hcode this.terms
    let t ← t.expandIf (2 * t.count > t.chains.size) malloc
    some (true, { t with revised := true })

/-! ## What the table lists -/

/-- The records of the list, and everything that has to agree with them. -/
structure Lists (t : AnswerTable) (l : List ℕ) : Prop where
  chain : Seg t.nextInTable (some t.first) l none
  last_eq : l.getLast? = some t.last
  count_eq : t.count = l.length
  lt_top : ∀ a ∈ l, a < t.top
  holds : t.chains.Holds t.hcode l

def records (t : AnswerTable) : List ℕ := chainNodes t.nextInTable t.top (some t.first)

def answers (t : AnswerTable) : List (List TabledTerm) := t.records.map t.args

variable {t : AnswerTable} {l : List ℕ}

section
variable (h : t.Lists l)
include h

theorem Lists.nodup : l.Nodup := (seg_none_iff.1 h.chain).nodup

theorem Lists.length_le : l.length ≤ t.top := by
  have hsub : l ⊆ List.range t.top := fun a ha => mem_range.2 (h.lt_top a ha)
  have := (h.nodup.subperm hsub).length_le
  rwa [length_range] at this

theorem Lists.records_eq : t.records = l := chainNodes_eq (seg_none_iff.1 h.chain) h.length_le

theorem Lists.answers_eq : t.answers = l.map t.args := by rw [answers, h.records_eq]

theorem Lists.top_notMem : t.top ∉ l := fun hmem => lt_irrefl _ (h.lt_top _ hmem)

end

def bucket (t : AnswerTable) (hcode : ℕ) : List ℕ :=
  chainNodes t.chains.next t.top (t.chains.head (hcode % t.chains.size))

/-- No list of the new answer meets something else in the records of its bucket, up to one with the same arguments. -/
def Meets (t : AnswerTable) (args : List TabledTerm) : Prop :=
  ∀ a ∈ (t.bucket (hashvalOfTabledAnswer args)).takeWhile fun a => !decide (args = t.args a), ArgsMeet args (t.args a)

instance (t : AnswerTable) (args : List TabledTerm) : Decidable (t.Meets args) :=
  inferInstanceAs (Decidable (∀ a ∈ _, _))

theorem Lists.lookup_eq (h : t.Lists l) (hnodup : (l.map t.args).Nodup) {args : List TabledTerm}
    (hmeets : t.Meets args) :
    t.lookup (hashvalOfTabledAnswer args) args = some (l.find? fun a => args = t.args a) := by
  refine h.holds.search_eq h.length_le (fun a ha => ?_) ?_ ?_ ?_
  · have hne : (!decide (args = t.args a)) = true :=
      mem_takeWhile_imp (p := fun a => !decide (args = t.args a)) ha
    rw [Bool.not_eq_true'] at hne
    rw [identicalArgs_eq (hmeets a ha), hne]
  · intro a _ heq
    rw [of_decide_eq_true heq, identicalArgs_eq (argsMeet_self _), decide_eq_true rfl]
  · intro a _ heq
    rw [hcode, ← of_decide_eq_true heq]
  · intro a ha b hb hqa hqb
    exact inj_on_of_nodup_map hnodup ha hb ((of_decide_eq_true hqa).symm.trans (of_decide_eq_true hqb))

section PushRecord
variable (h : ℕ) (args : List TabledTerm)

theorem args_pushRecord_top : (t.pushRecord h args).args t.top = args := update_self ..

theorem args_pushRecord_of_lt {a : ℕ} (ha : a < t.top) : (t.pushRecord h args).args a = t.args a :=
  update_of_ne ha.ne ..

theorem map_args_pushRecord (hl : ∀ a ∈ l, a < t.top) : l.map (t.pushRecord h args).args = l.map t.args :=
  map_congr_left fun a ha => args_pushRecord_of_lt h args (hl a ha)

end PushRecord

theorem Lists.holds_pushRecord (h : t.Lists l) (args : List TabledTerm) :
    (t.pushRecord (hashvalOfTabledAnswer args) args).chains.Holds
      (t.pushRecord (hashvalOfTabledAnswer args) args).hcode (t.top :: l) := by
  have hold : t.chains.Holds (t.pushRecord (hashvalOfTabledAnswer args) args).hcode l :=
    h.holds.congr_hash fun a ha => congrArg hashvalOfTabledAnswer (args_pushRecord_of_lt _ args (h.lt_top a ha))
  have hpush := hold.push h.top_notMem
  have htop : (t.pushRecord (hashvalOfTabledAnswer args) args).hcode t.top = hashvalOfTabledAnswer args :=
    congrArg hashvalOfTabledAnswer (args_pushRecord_top _ args)
  rw [htop] at hpush
  exact hpush

theorem Lists.expandIf (h : t.Lists l) (full malloc : Bool) :
    ∃ chains : Buckets ℕ, t.expandIf full malloc = some { t with chains := chains } ∧
      ({ t with chains := chains } : AnswerTable).Lists l := by
  obtain ⟨chains, hchains, hholds⟩ : ∃ chains : Buckets ℕ,
      t.expandIf full malloc = some { t with chains := chains } ∧ chains.Holds t.hcode l := by
    cases full with
    | false => exact ⟨t.chains, rfl, h.holds⟩
    | true =>
      cases malloc with
      | false => exact ⟨t.chains, rfl, h.holds⟩
      | true =>
        obtain ⟨chains, hchains, -, hholds⟩ :=
          h.holds.rehash (Nat.zero_lt_of_lt (lt_bpHsize (3 * t.chains.size))) h.length_le
        refine ⟨chains, ?_, hholds⟩
        rw [AnswerTable.expandIf, if_pos rfl, expandAnswerTable, if_pos rfl, hchains]
        rfl
  exact ⟨chains, hchains, ⟨h.chain, h.last_eq, h.count_eq, h.lt_top, hholds⟩⟩

theorem Lists.markRevised (h : t.Lists l) : ({ t with revised := true } : AnswerTable).Lists l :=
  ⟨h.chain, h.last_eq, h.count_eq, h.lt_top, h.holds⟩

theorem lists_allocate (firstAnswer : List TabledTerm) : (allocateAnswerTable firstAnswer).Lists [0] where
  chain := ⟨rfl, rfl⟩
  last_eq := rfl
  count_eq := rfl
  lt_top a ha := by
    rw [mem_singleton.1 ha]
    exact Nat.one_pos
  holds := (Buckets.holds_empty (by decide) _).push not_mem_nil

theorem Lists.exists_concat (h : t.Lists l) : ∃ init, l = init ++ [t.last] := by
  rcases eq_nil_or_concat l with rfl | ⟨init, z, rfl⟩
  · cases h.last_eq
  · have hz := h.last_eq
    rw [concat_eq_append, List.getLast?_concat, Option.some.injEq] at hz
    exact ⟨init, by rw [concat_eq_append, hz]⟩

theorem Lists.appendRecord (h : t.Lists l) (args : List TabledTerm) :
    (t.appendRecord (hashvalOfTabledAnswer args) args).Lists (l ++ [t.top]) := by
  refine ⟨?_, List.getLast?_concat .., ?_, fun a ha => ?_, (h.holds_pushRecord args).congr fun a => by simp [or_comm]⟩
  · obtain ⟨init, hinit⟩ := h.exists_concat
    have hchain := h.chain
    have hnodup := h.nodup
    have htop := h.top_notMem
    rw [hinit] at hchain hnodup htop ⊢
    rw [nodup_append] at hnodup
    rw [mem_append, mem_singleton, not_or] at htop
    have hlast : t.last ∉ init := fun hmem => hnodup.2.2 _ hmem _ (mem_singleton_self _) rfl
    refine seg_concat.2 ⟨seg_concat.2 ⟨?_, update_self ..⟩, ?_⟩
    · exact ((seg_concat.1 hchain).1.update htop.1).update hlast
    · change update (update t.nextInTable t.top none) t.last (some t.top) t.top = none
      rw [update_of_ne htop.2, update_self]
  · rw [length_append, length_singleton, ← h.count_eq]
    rfl
  · rw [mem_append, mem_singleton] at ha
    rcases ha with ha | rfl
    · exact Nat.lt_succ_of_lt (h.lt_top a ha)
    · exact Nat.lt_succ_self _

/-- An answer that is there already leaves the table as it is, and a new one goes to the end of the list. -/
theorem Lists.addTableAnswer (h : t.Lists l) (hnodup : (l.map t.args).Nodup) {answer : List HeapTerm}
    (hmeets : t.Meets (answerTerms answer)) (malloc : Bool) :
    if answerTerms answer ∈ l.map t.args then t.addTableAnswer answer malloc = some (false, t)
    else ∃ t', t.addTableAnswer answer malloc = some (true, t') ∧ t'.revised = true ∧ t'.Lists (l ++ [t.top]) ∧
      (l ++ [t.top]).map t'.args = l.map t.args ++ [answerTerms answer] := by
  have hlookup := h.lookup_eq hnodup hmeets
  split_ifs with hmem
  · obtain ⟨a, ha, hargs⟩ := mem_map.1 hmem
    obtain ⟨b, hb⟩ : ∃ b, l.find? (fun a => answerTerms answer = t.args a) = some b := by
      rw [← Option.isSome_iff_exists, List.find?_isSome]
      exact ⟨a, ha, decide_eq_true hargs.symm⟩
    rw [AnswerTable.addTableAnswer, ← answerTerms, answerHcode_eq, hlookup, hb]
    rfl
  · have hnone : l.find? (fun a => answerTerms answer = t.args a) = none := by
      rw [List.find?_eq_none]
      intro a ha heq
      exact hmem (mem_map.2 ⟨a, ha, (of_decide_eq_true heq).symm⟩)
    obtain ⟨chains, hchains, hlists⟩ := (h.appendRecord (answerTerms answer)).expandIf
      (2 * (t.appendRecord (hashvalOfTabledAnswer (answerTerms answer)) (answerTerms answer)).count >
        (t.appendRecord (hashvalOfTabledAnswer (answerTerms answer)) (answerTerms answer)).chains.size) malloc
    refine ⟨_, ?_, rfl, hlists.markRevised, ?_⟩
    · rw [AnswerTable.addTableAnswer, ← answerTerms, answerHcode_eq, hlookup, hnone]
      simp only [Option.bind_eq_bind, Option.bind_some, hchains]
    · rw [List.map_append, map_singleton]
      exact congrArg₂ (· ++ ·) (map_args_pushRecord (hashvalOfTabledAnswer (answerTerms answer)) _ h.lt_top)
        (congrArg (fun x => [x]) (args_pushRecord_top (hashvalOfTabledAnswer (answerTerms answer)) _))

end AnswerTable

end Picat

/-! # The table of subgoals -/

namespace Picat

open Chains Variants Function List

/-- The operands of `table_allocate` and `table_mode`. -/
structure Preds where
  arity : Sym → ℕ
  callMode : Sym → ℕ
  ntLastArg : Sym → Bool
  /-- `0` where there is no limit. -/
  tableCard : Sym → ℕ
  planPsc : Sym
  arity_planPsc : arity planPsc = 2
  ntLastArg_planPsc : ntLastArg planPsc = true
  arity_pos : ∀ sym, ntLastArg sym = true → 0 < arity sym

def Preds.tabledPart {α : Type*} (P : Preds) (sym : Sym) (ts : List α) : List α :=
  if P.ntLastArg sym then ts.dropLast else ts

/-- The arguments of a call as they are looked up, with the slot `v` of the frame in place of a last argument that is
not tabled. -/
def Preds.callArgs (P : Preds) (sym : Sym) (v : ℕ) (ts : List HeapTerm) : List HeapTerm :=
  if P.ntLastArg sym then ts.dropLast ++ [.var v] else ts

/-- `GT_SYM` and the arguments of the entries; all entries below `top` are in the table. -/
structure SubgoalTable where
  sym : ℕ → Sym
  args : ℕ → List TabledTerm
  chains : Buckets ℕ
  count : ℕ
  top : ℕ

/-- What `lookupSubgoalTable` returns. -/
inductive LookupResult
  | entry (e : ℕ)
  | outputModeError
deriving DecidableEq

variable {e : ℕ} {ts : List HeapTerm}

namespace SubgoalTable

/-- `initialize_table`, with the `subgoalTableBucketSize` to begin with. -/
def start : SubgoalTable :=
  ⟨fun _ => 0, fun _ => [], ⟨7919, fun _ => none, fun _ => none⟩, 0, 0⟩

def hcode (t : SubgoalTable) (e : ℕ) : ℕ := hashvalOfTabledSubgoal (t.sym e) (t.args e)

/-- `expandSubgoalTable`, which does nothing when there is no memory for the new buckets. -/
def expandSubgoalTable (t : SubgoalTable) (malloc : Bool) : Option SubgoalTable :=
  if malloc then do
    let chains ← t.chains.rehash t.hcode (bpHsize (3 * t.chains.size)) t.top
    some { t with chains := chains }
  else some t

/-- `expandSubgoalTable`, when the table is `full`. -/
def expandIf (t : SubgoalTable) (full : Bool) (malloc : Bool) : Option SubgoalTable :=
  if full then t.expandSubgoalTable malloc else some t

/-- Two words compared by `identicalTabledTerms`, where the second one is the address of a symbol. -/
def identicalSym (w : ℕ) (sym : Sym) : Option Bool :=
  if w = sym then some true
  else if w &&& 3 = 3 ∧ w &&& tagMask ≠ tagMask then none
  else some false

/-- The comparison of the last arguments. Without arguments the words before them are taken: `GT_SYM` of the entry, and
what memory held at its place in the new record. -/
def identicalLast (fresh : ℕ) (sym : Sym) (terms args : List TabledTerm) : Option Bool :=
  match terms.getLast?, args.getLast? with
  | some t, some u => identicalTabledTerms t u
  | none, none => identicalSym fresh sym
  | _, _ => some false

/-- The tests of the loop in `lookupSubgoalTable` on an entry. -/
def accepts (P : Preds) (t : SubgoalTable) (fresh : ℕ) (sym : Sym) (terms : List TabledTerm) (e : ℕ) : Option Bool :=
  if t.sym e ≠ sym then some false
  else match identicalArgs terms.dropLast (t.args e).dropLast with
    | some true => if P.ntLastArg sym then some true else identicalLast fresh sym terms (t.args e)
    | r => r

def register (t : SubgoalTable) (sym : Sym) (hcode : ℕ) (terms : List TabledTerm) : SubgoalTable where
  sym := update t.sym t.top sym
  args := update t.args t.top terms
  chains := t.chains.push (hcode % t.chains.size) t.top
  count := t.count + 1
  top := t.top + 1

/-- Every argument that the mode declares as output is a variable. -/
def outputArgsFree (mode : ℕ) (terms : List TabledTerm) : Bool :=
  terms.zipIdx.all fun (t, i) => !mode.testBit i || (match t with | .var _ => true | _ => false)

/-- `lookupSubgoalTable` on the arguments `stackArgs`; `fresh` is the word at `GT_SYM` of the memory for the new
record. -/
def lookupSubgoalTable (P : Preds) (t : SubgoalTable) (sym : Sym) (stackArgs : List HeapTerm) (fresh : ℕ)
    (malloc : Bool) : Option (LookupResult × SubgoalTable) := do
  let this := numberVarCopySubgoalArgsToTableArea (wordHash sym) stackArgs
  if !outputArgsFree (P.callMode sym) this.terms then some (.outputModeError, t)
  else
    match ← search (t.accepts P fresh sym this.terms) t.chains.next t.top
        (t.chains.head (this.hcode % t.chains.size)) with
    | some e => some (.entry e, t)
    | none =>
      let t' := t.register sym this.hcode this.terms
      let t' ← t'.expandIf (2 * t'.count > t'.chains.size) malloc
      some (.entry t.top, t')

/-- The limit of a plan takes the place of the last argument, when `table_allocate` starts the evaluation. -/
def setLimit (t : SubgoalTable) (e : ℕ) (limit : ℕ) : SubgoalTable :=
  { t with args := update t.args e ((t.args e).dropLast ++ [.atm limit]) }

/-- The hash code that `lookupSubgoalTableNoCopy` searches with. -/
def lookupSubgoalTableNoCopyHcode (sym : Sym) : List HeapTerm → ℕ
  | [] => wordHash sym
  | t :: ts => bpHashvalArgs (wordHash sym + bpHashval t) ts &&& hashBits

/-! ## Calls and their keys -/

/-- The hash code of calls whose tabled arguments have the copies `key`. -/
def keyHcode (P : Preds) (sym : Sym) (key : List TabledTerm) : ℕ :=
  hashvalOfTabledSubgoal sym (if P.ntLastArg sym then key ++ [.var 0] else key)

def key (P : Preds) (t : SubgoalTable) (e : ℕ) : List TabledTerm := P.tabledPart (t.sym e) (t.args e)

variable {P : Preds} {t : SubgoalTable} {sym : Sym}

theorem tabledPart_callArgs (P : Preds) (sym : Sym) (v : ℕ) (ts : List HeapTerm) :
    P.tabledPart sym (answerTerms (P.callArgs sym v ts)) = answerTerms (P.tabledPart sym ts) := by
  rw [Preds.tabledPart, Preds.callArgs, Preds.tabledPart]
  split_ifs
  · obtain ⟨n, hn⟩ := answerTerms_concat_var ts.dropLast v
    rw [hn, dropLast_concat]
  · rfl

theorem hashval_callArgs (P : Preds) (sym : Sym) (v : ℕ) (ts : List HeapTerm) :
    hashvalOfTabledSubgoal sym (answerTerms (P.callArgs sym v ts)) =
      keyHcode P sym (answerTerms (P.tabledPart sym ts)) := by
  rw [keyHcode, Preds.callArgs, Preds.tabledPart]
  split_ifs
  · obtain ⟨n, hn⟩ := answerTerms_concat_var ts.dropLast v
    rw [hn]
    exact hashvalOfTabledSubgoal_concat sym _ rfl
  · rfl

theorem length_callArgs (hpos : P.ntLastArg sym = true → 0 < P.arity sym) (v : ℕ)
    (hlen : ts.length = P.arity sym) : (P.callArgs sym v ts).length = P.arity sym := by
  rw [Preds.callArgs]
  split_ifs with hnt
  · have := hpos hnt
    rw [length_append, length_dropLast, length_singleton]
    omega
  · exact hlen

/-! ## The entries -/

def bucket (t : SubgoalTable) (hcode : ℕ) : List ℕ :=
  chainNodes t.chains.next t.top (t.chains.head (hcode % t.chains.size))

/-- Every entry is in the bucket of the hash code that its calls have. -/
structure Entered (P : Preds) (t : SubgoalTable) : Prop where
  holds : t.chains.Holds t.hcode (List.range t.top)
  length_args : ∀ e < t.top, (t.args e).length = P.arity (t.sym e)
  hcode_eq : ∀ e < t.top, t.hcode e = keyHcode P (t.sym e) (t.key P e)

theorem entered_start (P : Preds) : start.Entered P :=
  ⟨Buckets.holds_empty (by decide) _, fun _ h => absurd h (Nat.not_lt_zero _), fun _ h => absurd h (Nat.not_lt_zero _)⟩

theorem Entered.mem_bucket (h : t.Entered P) (hcode : ℕ) :
    e ∈ t.bucket hcode ↔ e < t.top ∧ t.hcode e % t.chains.size = hcode % t.chains.size := by
  rw [bucket, h.holds.mem_chainNodes (Nat.le_of_eq length_range), mem_range]

theorem accepts_eq {terms : List TabledTerm} {fresh : ℕ} (hsym : t.sym e = sym) (hpos : 0 < terms.length)
    (hlen : terms.length = (t.args e).length) :
    t.accepts P fresh sym terms e = identicalArgs (P.tabledPart sym terms) (t.key P e) := by
  obtain ⟨init, z, rfl⟩ := (eq_nil_or_concat terms).resolve_left (ne_nil_of_length_pos hpos)
  rw [hlen] at hpos
  obtain ⟨init', z', hargs⟩ := (eq_nil_or_concat (t.args e)).resolve_left (ne_nil_of_length_pos hpos)
  simp only [concat_eq_append] at hargs hlen ⊢
  rw [hargs, length_append, length_append, length_singleton, length_singleton, Nat.add_right_cancel_iff] at hlen
  rw [accepts, if_neg (not_not.2 hsym), key, hsym, Preds.tabledPart, Preds.tabledPart, hargs, identicalLast]
  simp only [dropLast_concat, List.getLast?_concat]
  split_ifs
  · rcases identicalArgs init init' with _ | _ | _ <;> rfl
  · rw [identicalArgs_append hlen]
    rcases identicalArgs init init' with _ | _ | _
    · rfl
    · rfl
    · change identicalTabledTerms z z' = identicalArgs [z] [z']
      rw [identicalArgs]
      rcases identicalTabledTerms z z' with _ | _ | _ <;> rfl

theorem of_accepts {terms : List TabledTerm} {fresh : ℕ} (h : t.accepts P fresh sym terms e = some true)
    (hlen : t.sym e = sym → terms.length = (t.args e).length) :
    t.sym e = sym ∧ t.key P e = P.tabledPart sym terms := by
  have hsym : t.sym e = sym := by
    by_contra hne
    rw [accepts, if_pos hne] at h
    cases h
  refine ⟨hsym, ?_⟩
  rcases Nat.eq_zero_or_pos terms.length with hzero | hpos
  · have hargs := eq_nil_of_length_eq_zero ((hlen hsym).symm.trans hzero)
    rw [key, hsym, hargs, eq_nil_of_length_eq_zero hzero]
  · rw [accepts_eq hsym hpos (hlen hsym)] at h
    exact (eq_of_identicalArgs h).symm

theorem Entered.register (h : t.Entered P) {terms : List TabledTerm} (hlen : terms.length = P.arity sym)
    (hcode : hashvalOfTabledSubgoal sym terms = keyHcode P sym (P.tabledPart sym terms)) :
    (t.register sym (hashvalOfTabledSubgoal sym terms) terms).Entered P := by
  have hold : ∀ e < t.top, (t.register sym (hashvalOfTabledSubgoal sym terms) terms).sym e = t.sym e ∧
      (t.register sym (hashvalOfTabledSubgoal sym terms) terms).args e = t.args e := fun e he =>
    ⟨update_of_ne he.ne .., update_of_ne he.ne ..⟩
  have hsym : (t.register sym (hashvalOfTabledSubgoal sym terms) terms).sym t.top = sym := update_self ..
  have hargs : (t.register sym (hashvalOfTabledSubgoal sym terms) terms).args t.top = terms := update_self ..
  refine ⟨?_, fun e he => ?_, fun e he => ?_⟩
  · have hcodes : t.chains.Holds (t.register sym (hashvalOfTabledSubgoal sym terms) terms).hcode (List.range t.top) :=
      h.holds.congr_hash fun e he => by
        rw [SubgoalTable.hcode, (hold e (mem_range.1 he)).1, (hold e (mem_range.1 he)).2]
        rfl
    have hpush := hcodes.push (a := t.top) (by simp)
    rw [SubgoalTable.hcode, hsym, hargs] at hpush
    apply hpush.congr
    intro e
    rw [mem_range, mem_cons, mem_range]
    exact Nat.lt_succ_iff.trans (Nat.le_iff_lt_or_eq.trans or_comm)
  · rcases Nat.lt_succ_iff_lt_or_eq.1 he with he | rfl
    · rw [(hold e he).1, (hold e he).2]
      exact h.length_args e he
    · rw [hsym, hargs]
      exact hlen
  · rcases Nat.lt_succ_iff_lt_or_eq.1 he with he | rfl
    · have := h.hcode_eq e he
      rw [SubgoalTable.hcode, key] at this ⊢
      rw [(hold e he).1, (hold e he).2]
      exact this
    · rw [SubgoalTable.hcode, key, hsym, hargs]
      exact hcode

theorem Entered.expand (h : t.Entered P) (malloc : Bool) :
    ∃ chains : Buckets ℕ, t.expandSubgoalTable malloc = some { t with chains := chains } ∧
      ({ t with chains := chains } : SubgoalTable).Entered P := by
  cases malloc with
  | false => exact ⟨t.chains, rfl, h⟩
  | true =>
    obtain ⟨chains, hchains, -, hholds⟩ :=
      h.holds.rehash (Nat.zero_lt_of_lt (lt_bpHsize (3 * t.chains.size))) (Nat.le_of_eq length_range)
    refine ⟨chains, ?_, hholds, h.length_args, h.hcode_eq⟩
    rw [expandSubgoalTable, if_pos rfl, hchains]
    rfl

/-- The limit of a plan is no tabled argument, and changes no hash code if it has none of its own. -/
theorem Entered.setLimit (h : t.Entered P) {limit : ℕ} (he : e < t.top) (hplan : t.sym e = P.planPsc)
    (hlimit : wordHash limit = 0) : (t.setLimit e limit).Entered P ∧ ∀ a, (t.setLimit e limit).key P a = t.key P a := by
  have hlen := h.length_args e he
  rw [hplan, P.arity_planPsc] at hlen
  have hnt := P.ntLastArg_planPsc
  have hself : (t.setLimit e limit).args e = (t.args e).dropLast ++ [.atm limit] := update_self ..
  have hother : ∀ a, a ≠ e → (t.setLimit e limit).args a = t.args a := fun a ha => update_of_ne ha ..
  have hkey : ∀ a, (t.setLimit e limit).key P a = t.key P a := fun a => by
    by_cases ha : a = e
    · rw [ha, key, key, hself]
      change P.tabledPart (t.sym e) _ = _
      rw [hplan, Preds.tabledPart, Preds.tabledPart, if_pos hnt, if_pos hnt, dropLast_concat]
    · rw [key, key, hother a ha]
      rfl
  have hcode : ∀ a < t.top, (t.setLimit e limit).hcode a = t.hcode a := fun a ha => by
    by_cases hae : a = e
    · rw [hae, h.hcode_eq e he, keyHcode, key, hplan, if_pos hnt, Preds.tabledPart, if_pos hnt, SubgoalTable.hcode, hself]
      change hashvalOfTabledSubgoal (t.sym e) _ = _
      rw [hplan]
      exact hashvalOfTabledSubgoal_concat _ _ hlimit
    · rw [SubgoalTable.hcode, hother a hae]
      rfl
  refine ⟨⟨h.holds.congr_hash fun a ha => hcode a (mem_range.1 ha), fun a ha => ?_, fun a ha => ?_⟩, hkey⟩
  · by_cases hae : a = e
    · rw [hae, hself, length_append, length_dropLast, length_singleton, hlen]
      change 2 = P.arity (t.sym e)
      rw [hplan, P.arity_planPsc]
    · rw [hother a hae]
      exact h.length_args a ha
  · rw [hcode a ha, hkey a]
    exact h.hcode_eq a ha

/-! ## Lookups -/

/-- The entry is one of a call of `sym` whose tabled arguments have the copies `k`. -/
def IsEntryOf (P : Preds) (t : SubgoalTable) (sym : Sym) (k : List TabledTerm) (e : ℕ) : Prop :=
  t.sym e = sym ∧ t.key P e = k

instance (P : Preds) (t : SubgoalTable) (sym : Sym) (k : List TabledTerm) (e : ℕ) : Decidable (t.IsEntryOf P sym k e) :=
  inferInstanceAs (Decidable (_ ∧ _))

/-- The lookup compares no list with something else: in the bucket of the hash code, up to an entry of such a call. -/
def Meets (P : Preds) (t : SubgoalTable) (sym : Sym) (k : List TabledTerm) : Prop :=
  ∀ e ∈ (t.bucket (keyHcode P sym k)).takeWhile fun e => !decide (t.IsEntryOf P sym k e),
    t.sym e = sym → ArgsMeet k (t.key P e)

instance (P : Preds) (t : SubgoalTable) (sym : Sym) (k : List TabledTerm) : Decidable (t.Meets P sym k) :=
  inferInstanceAs (Decidable (∀ e ∈ _, _))

/-- What is left of a table by a lookup: nothing new, or one entry more. -/
inductive LookedUp (P : Preds) (t : SubgoalTable) (sym : Sym) (k : List TabledTerm) : LookupResult → SubgoalTable → Prop
  | outputModeError : LookedUp P t sym k .outputModeError t
  | found (e : ℕ) (he : e < t.top) (heq : t.IsEntryOf P sym k e) : LookedUp P t sym k (.entry e) t
  | entered (t' : SubgoalTable) (h : t'.Entered P) (htop : t'.top = t.top + 1) (hnew : t'.IsEntryOf P sym k t.top)
      (hold : ∀ e < t.top, t'.sym e = t.sym e ∧ t'.args e = t.args e) : LookedUp P t sym k (.entry t.top) t'

section
variable (h : t.Entered P)
include h

theorem IsEntryOf.mem_bucket (he : e < t.top) {k : List TabledTerm}
    (heq : t.IsEntryOf P sym k e) : e ∈ t.bucket (keyHcode P sym k) := by
  rw [h.mem_bucket, h.hcode_eq e he, heq.1, heq.2]
  exact ⟨he, rfl⟩

theorem Entered.search_eq {v fresh : ℕ} (hlen : ts.length = P.arity sym)
    (hpos : 0 < P.arity sym) (hmeets : t.Meets P sym (answerTerms (P.tabledPart sym ts))) :
    search (t.accepts P fresh sym (answerTerms (P.callArgs sym v ts))) t.chains.next t.top
        (t.chains.head (keyHcode P sym (answerTerms (P.tabledPart sym ts)) % t.chains.size)) =
      some ((t.bucket (keyHcode P sym (answerTerms (P.tabledPart sym ts)))).find? fun e =>
        decide (t.IsEntryOf P sym (answerTerms (P.tabledPart sym ts)) e)) := by
  have hterms : (answerTerms (P.callArgs sym v ts)).length = P.arity sym := by
    rw [length_answerTerms, length_callArgs (fun _ => hpos) v hlen]
  obtain ⟨l, hl, -, hle⟩ := h.holds.bucket (keyHcode P sym (answerTerms (P.tabledPart sym ts)))
  rw [length_range] at hle
  have hbucket : t.bucket (keyHcode P sym (answerTerms (P.tabledPart sym ts))) = l := chainNodes_eq hl hle
  have haccepts : ∀ e ∈ l, t.sym e = sym → t.accepts P fresh sym (answerTerms (P.callArgs sym v ts)) e =
      identicalArgs (answerTerms (P.tabledPart sym ts)) (t.key P e) := fun e he hsym => by
    rw [← hbucket, h.mem_bucket] at he
    rw [accepts_eq hsym (hterms.symm ▸ hpos) (by rw [hterms, h.length_args e he.1, hsym]), tabledPart_callArgs]
  rw [Meets, hbucket] at hmeets
  rw [hbucket]
  refine Chains.search_eq hl hle (fun e he => ?_) fun e he heq => ?_
  · have hne : (!decide (t.IsEntryOf P sym (answerTerms (P.tabledPart sym ts)) e)) = true :=
      mem_takeWhile_imp (p := fun e => !decide (t.IsEntryOf P sym (answerTerms (P.tabledPart sym ts)) e)) he
    rw [Bool.not_eq_true', decide_eq_false_iff_not] at hne
    by_cases hsym : t.sym e = sym
    · rw [haccepts e (( takeWhile_prefix _).subset he) hsym, identicalArgs_eq (hmeets e he hsym),
        decide_eq_false fun heq => hne ⟨hsym, heq.symm⟩]
    · rw [accepts, if_pos hsym]
  · obtain ⟨hsym, hkey⟩ := of_decide_eq_true heq
    rw [haccepts e he hsym, hkey, identicalArgs_eq (argsMeet_self _), decide_eq_true rfl]

theorem Entered.enter {v : ℕ} {ts : List HeapTerm} (hlen : ts.length = P.arity sym) (malloc : Bool)
    {k : List TabledTerm} (hk : k = answerTerms (P.tabledPart sym ts)) :
    ∃ t', (t.register sym (keyHcode P sym k) (answerTerms (P.callArgs sym v ts))).expandIf
        (2 * (t.register sym (keyHcode P sym k) (answerTerms (P.callArgs sym v ts))).count >
          (t.register sym (keyHcode P sym k) (answerTerms (P.callArgs sym v ts))).chains.size) malloc = some t' ∧
      LookedUp P t sym k (.entry t.top) t' := by
  have hcode := hashval_callArgs P sym v ts
  have hlen' : (answerTerms (P.callArgs sym v ts)).length = P.arity sym := by
    rw [length_answerTerms, length_callArgs (P.arity_pos sym) v hlen]
  have hentered := @Entered.register P t sym h _ hlen' (by rw [tabledPart_callArgs, hcode])
  rw [hcode, ← hk] at hentered
  have hlooked : ∀ chains : Buckets ℕ,
      ({ t.register sym (keyHcode P sym k) (answerTerms (P.callArgs sym v ts)) with chains := chains } :
        SubgoalTable).Entered P → LookedUp P t sym k (.entry t.top)
          { t.register sym (keyHcode P sym k) (answerTerms (P.callArgs sym v ts)) with chains := chains } :=
    fun chains hchains => by
      refine .entered _ hchains rfl ⟨update_self .., ?_⟩ fun e he =>
        ⟨update_of_ne he.ne .., update_of_ne he.ne ..⟩
      rw [hk, ← tabledPart_callArgs P sym v ts]
      change P.tabledPart (update t.sym t.top sym t.top) (update t.args t.top _ t.top) = _
      rw [update_self, update_self]
  rw [expandIf]
  split_ifs
  · obtain ⟨chains, hexpand, hchains⟩ := hentered.expand malloc
    exact ⟨_, hexpand, hlooked chains hchains⟩
  · exact ⟨_, rfl, hlooked _ hentered⟩

theorem Entered.lookedUp {v fresh : ℕ} (hlen : ts.length = P.arity sym)
    {malloc : Bool} {r : LookupResult} {t' : SubgoalTable}
    (hlookup : t.lookupSubgoalTable P sym (P.callArgs sym v ts) fresh malloc = some (r, t')) :
    LookedUp P t sym (answerTerms (P.tabledPart sym ts)) r t' := by
  rw [lookupSubgoalTable, subgoalTerms_eq, subgoalHcode_eq, hashval_callArgs] at hlookup
  by_cases hfree : (!outputArgsFree (P.callMode sym) (answerTerms (P.callArgs sym v ts))) = true
  · rw [if_pos hfree] at hlookup
    obtain ⟨rfl, rfl⟩ := Prod.mk.inj (Option.some.inj hlookup)
    exact .outputModeError
  · rw [if_neg hfree, Option.bind_eq_bind, Option.bind_eq_some_iff] at hlookup
    obtain ⟨found, hsearch, hlookup⟩ := hlookup
    cases found with
    | some e =>
      obtain ⟨rfl, rfl⟩ := Prod.mk.inj (Option.some.inj hlookup)
      obtain ⟨hmem, haccepts⟩ := search_some hsearch
      have he := (h.mem_bucket _).1 hmem
      refine .found e he.1 ?_
      have := of_accepts haccepts fun hsym => by
        rw [length_answerTerms, length_callArgs (P.arity_pos sym) v hlen, h.length_args e he.1, hsym]
      rwa [tabledPart_callArgs] at this
    | none =>
      obtain ⟨t'', henter, hlooked⟩ := @Entered.enter P t sym h v ts hlen malloc _ rfl
      simp only [Option.bind_eq_bind, henter, Option.bind_some] at hlookup
      obtain ⟨rfl, rfl⟩ := Prod.mk.inj (Option.some.inj hlookup)
      exact hlooked

/-- A lookup whose comparisons get through returns, and makes a new entry only if the call has none. -/
theorem Entered.exists_lookup {v : ℕ} {ts : List HeapTerm} (hlen : ts.length = P.arity sym)
    (hpos : 0 < P.arity sym) (hmeets : t.Meets P sym (answerTerms (P.tabledPart sym ts))) (fresh : ℕ) (malloc : Bool) :
    ∃ r t', t.lookupSubgoalTable P sym (P.callArgs sym v ts) fresh malloc = some (r, t') ∧ (r = .outputModeError ↔
        outputArgsFree (P.callMode sym) (answerTerms (P.callArgs sym v ts)) = false) ∧
      (r = .entry t.top → ∀ e < t.top, ¬t.IsEntryOf P sym (answerTerms (P.tabledPart sym ts)) e) := by
  rw [lookupSubgoalTable, subgoalTerms_eq, subgoalHcode_eq, hashval_callArgs]
  cases hfree : outputArgsFree (P.callMode sym) (answerTerms (P.callArgs sym v ts)) with
  | false => exact ⟨_, _, rfl, by simp, by simp⟩
  | true =>
    rw [if_neg (by simp), Option.bind_eq_bind, h.search_eq hlen hpos hmeets, Option.bind_some]
    cases hfind : (t.bucket (keyHcode P sym (answerTerms (P.tabledPart sym ts)))).find? fun e =>
        decide (t.IsEntryOf P sym (answerTerms (P.tabledPart sym ts)) e) with
    | some e =>
      have he := ((h.mem_bucket _).1 (mem_of_find?_eq_some hfind)).1
      refine ⟨_, _, rfl, by simp, fun htop => ?_⟩
      rw [LookupResult.entry.injEq] at htop
      exact absurd he (Nat.not_lt_of_le htop.ge)
    | none =>
      obtain ⟨t', henter, -⟩ := @Entered.enter P t sym h v ts hlen malloc _ rfl
      refine ⟨.entry t.top, t', ?_, by simp, fun _ e he heq => ?_⟩
      · simp only [Option.bind_eq_bind, henter, Option.bind_some]
      · exact List.find?_eq_none.1 hfind e (heq.mem_bucket h he) (decide_eq_true heq)

end

end SubgoalTable

end Picat
