import Picat.Bigint.Term
import Picat.Tabling.Terms

/-!
# Copying terms to the table area

* `copy_spec` : the copy is sealed, comes with the hash code of the original and denotes it with its variables
  numbered.
-/

namespace Picat

open Variants List

mutual

/-- The variables `vs`, which are numbered already, and those of the term. -/
def numberVarTermOpt (vs : List ℕ) : HeapTerm → List ℕ
  | .var x => if x ∈ vs then vs else vs ++ [x]
  | .atm _ => vs
  | .lst car cdr => numberVarTermOpt (numberVarTermOpt vs car) cdr
  | .str _ arg args => numberVarArgs (numberVarTermOpt vs arg) args
  | .tab _ => vs

def numberVarArgs (vs : List ℕ) : List HeapTerm → List ℕ
  | [] => vs
  | t :: ts => numberVarArgs (numberVarTermOpt vs t) ts

end

/-- A copy with what comes with it; `vars` are the variables numbered by then, each at its number. -/
structure Copied where
  term : TabledTerm
  hcode : ℕ
  ground : Bool
  vars : List ℕ

/-- The copies of arguments, with the code accumulated over them. -/
structure CopiedArgs where
  terms : List TabledTerm
  hcode : ℕ
  ground : Bool
  vars : List ℕ

mutual

/-- `numberVarCopyToTableArea`, where `vs` are numbered already. `numberVarCopyListToTableArea` numbers the elements on the
way to the tail and copies them on the way back. Interning does not show in the copy. -/
def numberVarCopyToTableArea (vs : List ℕ) : HeapTerm → Copied
  | .var x => if x ∈ vs then ⟨.var (vs.idxOf x), 0, false, vs⟩ else ⟨.var vs.length, 0, false, vs ++ [x]⟩
  | .atm w => ⟨.atm w, wordHash w, true, vs⟩
  | .tab t => ⟨t.term, t.term.hashvalOfNumberedTerm, true, vs⟩
  | .lst car cdr =>
    let tail := numberVarCopyToTableArea (numberVarTermOpt vs car) cdr
    let head := numberVarCopyToTableArea tail.vars car
    let hcode := consHash head.hcode tail.hcode
    let ground := head.ground && tail.ground
    ⟨.lst ⟨hcode, ground⟩ head.term tail.term, hcode, ground, head.vars⟩
  | .str sym arg args =>
    let first := numberVarCopyToTableArea vs arg
    let rest := copyArgs first.vars (wordHash sym + first.hcode) args
    let hcode := rest.hcode &&& hashBits
    let ground := first.ground && rest.ground
    ⟨.str ⟨hcode, ground⟩ sym first.term rest.terms, hcode, ground, rest.vars⟩

def copyArgs (vs : List ℕ) (hcodeSum : ℕ) : List HeapTerm → CopiedArgs
  | [] => ⟨[], hcodeSum, true, vs⟩
  | t :: ts =>
    let first := numberVarCopyToTableArea vs t
    let rest := copyArgs first.vars (mixHash hcodeSum first.hcode) ts
    ⟨first.term :: rest.terms, rest.hcode, first.ground && rest.ground, rest.vars⟩

end

theorem numberVarTermOpt_eq (vs : List ℕ) (t : HeapTerm) : numberVarTermOpt vs t = firsts vs t.tree.occs := by
  induction t using HeapTerm.induct generalizing vs with
  | var x => rfl
  | atm w => rfl
  | lst car cdr ihcar ihcdr =>
    rw [numberVarTermOpt, ihcar, ihcdr, ← firsts_append]
    simp only [HeapTerm.tree, Tm.occs, Tm.vars, append_nil]
  | str sym arg args iharg ihargs =>
    have hargs : ∀ vs, numberVarArgs vs args = firsts vs (Tm.vars (HeapTerm.trees args)) := by
      induction args with
      | nil => exact fun vs => rfl
      | cons t ts ih =>
        rw [forall_mem_cons] at ihargs
        intro vs
        rw [numberVarArgs, ihargs.1, ih ihargs.2, ← firsts_append]
        rfl
    rw [numberVarTermOpt, iharg, hargs, ← firsts_append]
    rfl
  | tab t => rw [numberVarTermOpt, HeapTerm.tree, t.isSealed.occs_eq_nil t.ground, firsts]

/-! ## The copy -/

structure Copied.Of (c : Copied) (vs : List ℕ) (t : HeapTerm) : Prop where
  hcode_eq : c.hcode = bpHashval t
  hashval_eq : c.term.hashvalOfNumberedTerm = bpHashval t
  ground_eq : c.ground = c.term.isGroundNumberedTerm
  isSealed : c.term.Sealed
  vars_eq : c.vars = firsts vs t.tree.occs
  tree_eq : c.term.tree = t.tree.rename c.vars.idxOf

theorem Copied.Of.tree_eq_of_extends {c : Copied} {vs ws : List ℕ} {t : HeapTerm} (h : c.Of vs t) (hws : c.vars <+: ws) :
    c.term.tree = t.tree.rename ws.idxOf := by
  rw [h.tree_eq]
  refine Tm.rename_congr _ fun x hx => (idxOf_prefix_eq hws ?_).symm
  rw [h.vars_eq, mem_firsts]
  exact .inr hx

theorem Copied.Of.prefix_vars {c : Copied} {vs : List ℕ} {t : HeapTerm} (h : c.Of vs t) : vs <+: c.vars := by
  rw [h.vars_eq]
  exact prefix_firsts

structure CopiedArgs.Of (c : CopiedArgs) (vs : List ℕ) (hcodeSum : ℕ) (ts : List HeapTerm) : Prop where
  hcode_eq : c.hcode = bpHashvalArgs hcodeSum ts
  mixArgs_eq : TabledTerm.mixArgs hcodeSum c.terms = bpHashvalArgs hcodeSum ts
  ground_eq : c.ground = c.terms.all TabledTerm.isGroundNumberedTerm
  isSealed : ∀ t ∈ c.terms, t.Sealed
  vars_eq : c.vars = firsts vs (Tm.vars (HeapTerm.trees ts))
  tree_eq : TabledTerm.trees c.terms = Tm.mapVars c.vars.idxOf (HeapTerm.trees ts)

theorem copyArgs_spec_of {ts : List HeapTerm} (h : ∀ t ∈ ts, ∀ vs, (numberVarCopyToTableArea vs t).Of vs t) (vs : List ℕ)
    (hcodeSum : ℕ) : (copyArgs vs hcodeSum ts).Of vs hcodeSum ts := by
  induction ts generalizing vs hcodeSum with
  | nil => exact ⟨rfl, rfl, rfl, fun _ h => absurd h not_mem_nil, rfl, rfl⟩
  | cons t ts ih =>
    rw [forall_mem_cons] at h
    have hfirst := h.1 vs
    have hrest := ih h.2 (numberVarCopyToTableArea vs t).vars
      (mixHash hcodeSum (numberVarCopyToTableArea vs t).hcode)
    have hcode := hfirst.hcode_eq
    refine ⟨?_, ?_, ?_, ?_, ?_, ?_⟩
    · rw [copyArgs, hrest.hcode_eq, hcode, bpHashvalArgs]
    · rw [copyArgs, bpHashvalArgs, ← hcode, ← hrest.mixArgs_eq, hcode, ← hfirst.hashval_eq]
      rfl
    · rw [copyArgs, all_cons, hfirst.ground_eq, hrest.ground_eq]
    · exact forall_mem_cons.2 ⟨hfirst.isSealed, hrest.isSealed⟩
    · rw [copyArgs, hrest.vars_eq, hfirst.vars_eq, ← firsts_append]
      rfl
    · have hprefix : (numberVarCopyToTableArea vs t).vars <+: (copyArgs vs hcodeSum (t :: ts)).vars := by
        rw [copyArgs, hrest.vars_eq]
        exact prefix_firsts
      rw [HeapTerm.trees, Tm.mapVars, ← hfirst.tree_eq_of_extends hprefix]
      exact congrArg _ hrest.tree_eq

theorem copy_spec (vs : List ℕ) (t : HeapTerm) : (numberVarCopyToTableArea vs t).Of vs t := by
  induction t using HeapTerm.induct generalizing vs with
  | var x =>
    rw [numberVarCopyToTableArea]
    split_ifs with hx
    · exact ⟨rfl, rfl, rfl, trivial, (if_pos hx).symm, rfl⟩
    · refine ⟨rfl, rfl, rfl, trivial, (if_neg hx).symm, ?_⟩
      simp [TabledTerm.tree, HeapTerm.tree, Tm.rename, idxOf_append_of_notMem hx]
  | atm w => exact ⟨rfl, rfl, rfl, trivial, rfl, rfl⟩
  | tab t =>
    have hvars := t.isSealed.occs_eq_nil t.ground
    refine ⟨rfl, rfl, t.ground.symm, t.isSealed, ?_, ?_⟩
    · rw [numberVarCopyToTableArea, HeapTerm.tree, hvars, firsts]
    · exact ((Tm.rename_congr _ fun x hx => absurd (hvars ▸ hx) not_mem_nil).trans (Tm.rename_id _)).symm
  | lst car cdr ihcar ihcdr =>
    -- the variables of the head are numbered before the tail is copied, so the copy of the head finds all numbered
    have htail := ihcdr (numberVarTermOpt vs car)
    have hhead := ihcar (numberVarCopyToTableArea (numberVarTermOpt vs car) cdr).vars
    have hnumbered : ∀ x ∈ car.tree.occs, x ∈ (numberVarCopyToTableArea (numberVarTermOpt vs car) cdr).vars :=
      fun x hx => htail.prefix_vars.subset (numberVarTermOpt_eq vs car ▸ mem_firsts.2 (.inr hx))
    have hvars := hhead.vars_eq.trans (firsts_eq_self hnumbered)
    refine ⟨?_, ?_, ?_, ⟨?_, ?_, hhead.isSealed, htail.isSealed⟩, ?_, ?_⟩
    · rw [numberVarCopyToTableArea, bpHashval_lst, hhead.hcode_eq, htail.hcode_eq]
    · rw [numberVarCopyToTableArea, TabledTerm.hashvalOfNumberedTerm, hhead.hcode_eq, htail.hcode_eq,
        ← bpHashval_lst, bpHashval_and_hashBits]
    · rfl
    · rw [hhead.hcode_eq, htail.hcode_eq, hhead.hashval_eq, htail.hashval_eq]
    · rw [hhead.ground_eq, htail.ground_eq]
    · rw [numberVarCopyToTableArea, hvars, htail.vars_eq, numberVarTermOpt_eq, ← firsts_append, HeapTerm.tree, Tm.occs,
        Tm.vars, Tm.vars, Tm.vars, append_nil]
    · simp only [numberVarCopyToTableArea, TabledTerm.tree, HeapTerm.tree, Tm.rename, Tm.mapVars]
      rw [← hhead.tree_eq, htail.tree_eq_of_extends hhead.prefix_vars]
  | str sym arg args iharg ihargs =>
    have hfirst := iharg vs
    have hrest := copyArgs_spec_of ihargs (numberVarCopyToTableArea vs arg).vars
      (wordHash sym + (numberVarCopyToTableArea vs arg).hcode)
    have hcode := hfirst.hcode_eq
    refine ⟨?_, ?_, ?_, ⟨?_, ?_, hfirst.isSealed, TabledTerm.sealedArgs_iff.2 hrest.isSealed⟩, ?_, ?_⟩
    · rw [numberVarCopyToTableArea, bpHashval, hrest.hcode_eq, hcode]
    · rw [numberVarCopyToTableArea, TabledTerm.hashvalOfNumberedTerm, bpHashval, hrest.hcode_eq, hcode,
        and_hashBits_and_hashBits]
    · rfl
    · rw [hrest.hcode_eq, hfirst.hashval_eq, ← hcode, hrest.mixArgs_eq]
    · rw [hfirst.ground_eq, hrest.ground_eq]
    · rw [numberVarCopyToTableArea, hrest.vars_eq, hfirst.vars_eq, ← firsts_append]
      rfl
    · have hprefix : (numberVarCopyToTableArea vs arg).vars <+: (numberVarCopyToTableArea vs (.str sym arg args)).vars := by
        rw [numberVarCopyToTableArea, hrest.vars_eq]
        exact prefix_firsts
      rw [HeapTerm.tree, Tm.rename, Tm.mapVars, ← hfirst.tree_eq_of_extends hprefix]
      exact congrArg (fun ts => Tm.app _ (_ :: ts)) hrest.tree_eq

theorem copyArgs_spec (vs : List ℕ) (hcodeSum : ℕ) (ts : List HeapTerm) : (copyArgs vs hcodeSum ts).Of vs hcodeSum ts :=
  copyArgs_spec_of (fun t _ vs => copy_spec vs t) vs hcodeSum

end Picat

/-! # Comparing terms of the table area -/

namespace Picat

open Variants

mutual

/-- Equal addresses only cut the walk short: no term differs from itself. -/
def identicalTabledTerms : TabledTerm → TabledTerm → Option Bool
  | .var n, .var m => some (n == m)
  | .var _, _ => some false
  | .atm w, .atm v => some (w == v)
  | .atm _, _ => some false
  | .lst .., .var _ => some false
  -- the tag of the second term is not tested: its words are read as those of a list
  | .lst .., .atm _ => none
  | .lst cell car _, .str cell' .. =>
    if cell ≠ cell' then some false
    else match car with
      -- the address of the symbol stands where a list has its element, and is followed as a list
      | .lst .. => none
      | _ => some false
  | .lst cell car cdr, .lst cell' car' cdr' =>
    if cell ≠ cell' then some false
    else match identicalTabledTerms car car' with
      | some true => identicalTabledTerms cdr cdr'
      | r => r
  | .str cell sym arg args, .str cell' sym' arg' args' =>
    if sym ≠ sym' then some false
    else if cell ≠ cell' then some false
    else match identicalTabledTerms arg arg' with
      | some true => identicalArgs args args'
      | r => r
  | .str .., _ => some false

def identicalArgs : List TabledTerm → List TabledTerm → Option Bool
  | [], [] => some true
  | t :: ts, u :: us =>
    match identicalTabledTerms t u with
    | some true => identicalArgs ts us
    | r => r
  | _, _ => some false

end

/-- `ISLIST`, of a term that is not a numbered variable -/
def TabledTerm.isList : TabledTerm → Bool
  | lst .. => true
  | _ => false

mutual

/-- As far as the comparison goes, a list of the first term stands against a list or a variable, or against a structure
whose cell in front differs unless the list's element is no list. -/
def ListsMeetLists : TabledTerm → TabledTerm → Prop
  | .lst .., .atm _ => False
  | .lst cell car _, .str cell' .. => cell = cell' → car.isList = false
  | .lst cell car cdr, .lst cell' car' cdr' =>
    cell = cell' → ListsMeetLists car car' ∧ (car = car' → ListsMeetLists cdr cdr')
  | .str cell sym arg args, .str cell' sym' arg' args' =>
    sym = sym' → cell = cell' → ListsMeetLists arg arg' ∧ (arg = arg' → ArgsMeet args args')
  | _, _ => True

def ArgsMeet : List TabledTerm → List TabledTerm → Prop
  | t :: ts, u :: us => ListsMeetLists t u ∧ (t = u → ArgsMeet ts us)
  | _, _ => True

end

theorem identicalArgs_eq_of {ts us : List TabledTerm}
    (hts : ∀ t ∈ ts, ∀ u, ListsMeetLists t u → identicalTabledTerms t u = some (decide (t = u))) (h : ArgsMeet ts us) :
    identicalArgs ts us = some (decide (ts = us)) := by
  induction ts generalizing us with
  | nil => cases us <;> simp [identicalArgs]
  | cons t ts ih =>
    rw [List.forall_mem_cons] at hts
    cases us with
    | nil => simp [identicalArgs]
    | cons u us =>
      rw [identicalArgs, hts.1 u h.1]
      by_cases htu : t = u
      · simp [htu, ih hts.2 (h.2 htu)]
      · simp [htu]

theorem identicalTabledTerms_eq {t u : TabledTerm} (h : ListsMeetLists t u) :
    identicalTabledTerms t u = some (decide (t = u)) := by
  induction t using TabledTerm.induct generalizing u with
  | var n => cases u <;> simp [identicalTabledTerms, beq_eq_decide]
  | atm w => cases u <;> simp [identicalTabledTerms, beq_eq_decide]
  | lst cell car cdr ihcar ihcdr =>
    cases u with
    | var n => simp [identicalTabledTerms]
    | atm w => exact h.elim
    | str cell' sym arg args =>
      by_cases hcell : cell = cell'
      · have hcar : car.isList = false := h hcell
        cases car <;> simp_all [identicalTabledTerms, TabledTerm.isList]
      · simp [identicalTabledTerms, hcell]
    | lst cell' car' cdr' =>
      by_cases hcell : cell = cell'
      · obtain ⟨hcar, hcdr⟩ := h hcell
        rw [identicalTabledTerms, if_neg (not_not.2 hcell), ihcar hcar]
        by_cases hcars : car = car'
        · simp [hcell, hcars, ihcdr (hcdr hcars)]
        · simp [hcars]
      · simp [identicalTabledTerms, hcell]
  | str cell sym arg args iharg ihargs =>
    cases u with
    | var n => simp [identicalTabledTerms]
    | atm w => simp [identicalTabledTerms]
    | lst cell' car cdr => simp [identicalTabledTerms]
    | str cell' sym' arg' args' =>
      by_cases hsym : sym = sym'
      · by_cases hcell : cell = cell'
        · obtain ⟨harg, hargs⟩ := h hsym hcell
          rw [identicalTabledTerms, if_neg (not_not.2 hsym), if_neg (not_not.2 hcell), iharg harg]
          by_cases hfirst : arg = arg'
          · simp [hsym, hcell, hfirst, identicalArgs_eq_of (fun t ht u => @ihargs t ht u) (hargs hfirst)]
          · simp [hfirst]
        · simp [identicalTabledTerms, hsym, hcell]
      · simp [identicalTabledTerms, hsym]

theorem listsMeetLists_self (t : TabledTerm) : ListsMeetLists t t := by
  induction t using TabledTerm.induct with
  | var n => trivial
  | atm w => trivial
  | lst cell car cdr ihcar ihcdr => exact fun _ => ⟨ihcar, fun _ => ihcdr⟩
  | str cell sym arg args iharg ihargs =>
    refine fun _ _ => ⟨iharg, fun _ => ?_⟩
    induction args with
    | nil => trivial
    | cons t ts ih =>
      rw [List.forall_mem_cons] at ihargs
      exact ⟨ihargs.1, fun _ => ih ihargs.2⟩

theorem argsMeet_self (ts : List TabledTerm) : ArgsMeet ts ts := by
  induction ts with
  | nil => trivial
  | cons t ts ih => exact ⟨listsMeetLists_self t, fun _ => ih⟩

theorem identicalArgs_eq {ts us : List TabledTerm} (h : ArgsMeet ts us) :
    identicalArgs ts us = some (decide (ts = us)) :=
  identicalArgs_eq_of (fun _ _ _ => identicalTabledTerms_eq) h

theorem argsMeet_of_isSome_of {ts us : List TabledTerm}
    (hts : ∀ t ∈ ts, ∀ u, (identicalTabledTerms t u).isSome → ListsMeetLists t u) (h : (identicalArgs ts us).isSome) :
    ArgsMeet ts us := by
  induction ts generalizing us with
  | nil => simp [ArgsMeet]
  | cons t ts ih =>
    rw [List.forall_mem_cons] at hts
    cases us with
    | nil => simp [ArgsMeet]
    | cons u us =>
      rw [identicalArgs] at h
      have ht : ListsMeetLists t u := hts.1 u <| by
        cases hid : identicalTabledTerms t u with
        | none => simp [hid] at h
        | some r => rfl
      refine ⟨ht, fun htu => ih hts.2 ?_⟩
      rw [identicalTabledTerms_eq ht, decide_eq_true htu] at h
      exact h

theorem listsMeetLists_iff {t u : TabledTerm} : ListsMeetLists t u ↔ (identicalTabledTerms t u).isSome := by
  refine ⟨fun h => by rw [identicalTabledTerms_eq h]; rfl, fun h => ?_⟩
  induction t using TabledTerm.induct generalizing u with
  | var n => simp [ListsMeetLists]
  | atm w => simp [ListsMeetLists]
  | lst cell car cdr ihcar ihcdr =>
    cases u with
    | var n => simp [ListsMeetLists]
    | atm w => simp [identicalTabledTerms] at h
    | str cell' sym arg args =>
      rintro rfl
      cases car <;> simp_all [identicalTabledTerms, TabledTerm.isList]
    | lst cell' car' cdr' =>
      rintro rfl
      rw [identicalTabledTerms, if_neg (not_not.2 rfl)] at h
      have hcar : ListsMeetLists car car' := ihcar <| by
        cases hid : identicalTabledTerms car car' with
        | none => simp [hid] at h
        | some r => rfl
      refine ⟨hcar, fun hcars => ihcdr ?_⟩
      rw [identicalTabledTerms_eq hcar, decide_eq_true hcars] at h
      exact h
  | str cell sym arg args iharg ihargs =>
    cases u with
    | str cell' sym' arg' args' =>
      rintro rfl rfl
      rw [identicalTabledTerms, if_neg (not_not.2 rfl), if_neg (not_not.2 rfl)] at h
      have harg : ListsMeetLists arg arg' := iharg <| by
        cases hid : identicalTabledTerms arg arg' with
        | none => simp [hid] at h
        | some r => rfl
      refine ⟨harg, fun hfirst => argsMeet_of_isSome_of (fun t ht u => @ihargs t ht u) ?_⟩
      rw [identicalTabledTerms_eq harg, decide_eq_true hfirst] at h
      exact h
    | _ => simp [ListsMeetLists]

section
variable {ts us : List TabledTerm}

theorem argsMeet_iff : ArgsMeet ts us ↔ (identicalArgs ts us).isSome := by
  refine ⟨fun h => by rw [identicalArgs_eq h]; rfl, fun h => ?_⟩
  exact argsMeet_of_isSome_of (fun t _ u => listsMeetLists_iff.2) h

theorem eq_of_identicalArgs (h : identicalArgs ts us = some true) : ts = us := by
  rw [identicalArgs_eq (argsMeet_iff.2 (by rw [h]; rfl)), Option.some.injEq, decide_eq_true_eq] at h
  exact h

theorem identicalArgs_append (h : ts.length = us.length) (ts' us' : List TabledTerm) :
    identicalArgs (ts ++ ts') (us ++ us') = match identicalArgs ts us with
      | some true => identicalArgs ts' us'
      | r => r := by
  induction ts generalizing us with
  | nil =>
    rw [List.eq_nil_of_length_eq_zero h.symm]
    rfl
  | cons t ts ih =>
    cases us with
    | nil => cases h
    | cons u us =>
      rw [List.cons_append, List.cons_append, identicalArgs, identicalArgs, ih (Nat.succ.inj h)]
      rcases identicalTabledTerms t u with _ | _ | _ <;> rfl

end

/-- Two sealed terms are told apart, and no word followed that refers to no list or structure, exactly when no list
meets what the comparison takes for one. -/
theorem identicalTabledTerms_iff {t u : TabledTerm} (ht : t.Sealed) (hu : u.Sealed) :
    (∃ r, identicalTabledTerms t u = some r ∧ (r = true ↔ t.tree = u.tree)) ↔ ListsMeetLists t u := by
  refine ⟨fun ⟨r, hr, _⟩ => listsMeetLists_iff.2 (by rw [hr]; rfl), fun h => ?_⟩
  refine ⟨decide (t = u), identicalTabledTerms_eq h, ?_⟩
  rw [decide_eq_true_eq]
  exact ⟨fun heq => by rw [heq], ht.eq_of_tree hu⟩

/-- The list of the atom `w`, as it is copied. -/
def singleton (w : ℕ) : TabledTerm := .lst ⟨consHash (wordHash w) (wordHash 18), true⟩ (.atm w) (.atm 18)

/-- A list against an atom, as two calls with such arguments in one bucket make them meet. -/
theorem identicalTabledTerms_list_atom : ¬ ∀ t u : TabledTerm, t.Sealed → u.Sealed →
      ∃ r, identicalTabledTerms t u = some r ∧ (r = true ↔ t.tree = u.tree) := by
  intro h
  obtain ⟨r, hr, -⟩ := h (singleton 6) (.atm 10) ⟨rfl, rfl, trivial, trivial⟩ trivial
  cases hr

theorem identicalTabledTerms_iff_lists : (∃ r, identicalTabledTerms (singleton 6) (singleton 10) = some r ∧
        (r = true ↔ (singleton 6).tree = (singleton 10).tree)) ↔ ListsMeetLists (singleton 6) (singleton 10) :=
  identicalTabledTerms_iff ⟨rfl, rfl, trivial, trivial⟩ ⟨rfl, rfl, trivial, trivial⟩

instance (t u : TabledTerm) : Decidable (ListsMeetLists t u) := decidable_of_iff _ listsMeetLists_iff.symm

instance (ts us : List TabledTerm) : Decidable (ArgsMeet ts us) := decidable_of_iff _ argsMeet_iff.symm

end Picat

/-! # The order of tabled terms -/

namespace Picat

/-- What the comparison reads beside the terms: the names of symbols, the symbols of floats and bigints, and the
arithmetic of doubles. -/
structure Standard where
  name : Sym → List ℕ
  floatPsc : Sym
  bigintPsc : Sym
  Double : Type
  ofInt : ℤ → Double
  ofBigint : Bigint → Double
  ofWords : ℤ → ℤ → ℤ → Double
  ltDouble : Double → Double → Bool
  eqDouble : Double → Double → Bool
  /-- What comes out where the number of a variable is taken for the address of a list. -/
  wild : ℕ → TabledTerm → ℤ

/-- `ISINT` on the word of an atom or an integer. -/
def isInt (w : ℕ) : Bool := w &&& tagMask == intTag

def intval (w : ℕ) : ℤ := (intvalWord (BitVec.ofNat 64 w)).toInt

/-- `GET_ATM_SYM_REC` -/
def atmSym (w : ℕ) : Sym := w &&& 0x7ffffffffffffffc

/-- `BP_COMPARE_VALS` -/
def compareVals (a b : ℤ) : ℤ := if a = b then 0 else if a > b then 1 else -1

/-- `strcmp`, up to the size of the result. -/
def strcmp : List ℕ → List ℕ → ℤ
  | [], [] => 0
  | [], _ :: _ => -1
  | _ :: _, [] => 1
  | a :: as, b :: bs => if a = b then strcmp as bs else if a > b then 1 else -1

/-- The digits that `BP_MAKE_UBIG_FROM_DLST` reads from a list. -/
def dlst : TabledTerm → List ℕ
  | .lst _ (.atm w) cdr => (intval w).toNat :: dlst cdr
  | _ => []

/-- `BP_DECOMPOSE_BIGINT` -/
def bigintOf (signSize : TabledTerm) (digits : List TabledTerm) : Bigint :=
  ⟨match signSize with
    | .atm w => intval w
    | _ => 0, (digits.head?.map dlst).getD []⟩

/-- The address of a term is that of its interned copy when it is ground, and its own otherwise. -/
def sameAddr (t u : TabledTerm) : Bool := t.isGroundNumberedTerm && decide (t = u)

namespace Standard

variable (S : Standard)

def comalpha (sym sym' : Sym) : ℤ := if sym = sym' then 0 else strcmp (S.name sym) (S.name sym')

def compareFloatFloat (f g : S.Double) : ℤ := if S.ltDouble f g then -1 else if S.eqDouble f g then 0 else 1

def floatval (arg : TabledTerm) (args : List TabledTerm) : S.Double :=
  match arg, args with
  | .atm w1, [.atm w2, .atm w3] => S.ofWords (intval w1) (intval w2) (intval w3)
  | _, _ => S.ofInt 0

def compareAtomAtom (w v : ℕ) : ℤ :=
  if w = v then 0
  else if isInt w then (if isInt v then compareVals (intval w) (intval v) else -1)
  else if isInt v then 1
  else S.comalpha (atmSym w) (atmSym v)

def compareAtomStruct (w : ℕ) (sym : Sym) (arg : TabledTerm) (args : List TabledTerm) : ℤ :=
  if sym = S.floatPsc then
    if isInt w then S.compareFloatFloat (S.ofInt (intval w)) (S.floatval arg args) else 1
  else if sym = S.bigintPsc then
    if isInt w then (if (bigintOf arg args).sign < 0 then 1 else -1) else 1
  else -1

def compareFloatUnknown (f : S.Double) : TabledTerm → ℤ
  | .atm w => if isInt w then S.compareFloatFloat f (S.ofInt (intval w)) else -1
  | .str _ sym arg args =>
    if sym = S.floatPsc then S.compareFloatFloat f (S.floatval arg args)
    else if sym = S.bigintPsc then S.compareFloatFloat f (S.ofBigint (bigintOf arg args))
    else -1
  | _ => -1

def compareBigintUnknown (x : Bigint) : TabledTerm → ℤ
  | .atm w => if isInt w then (if x.sign < 0 then -1 else 1) else -1
  | .str _ sym arg args =>
    if sym = S.floatPsc then S.compareFloatFloat (S.ofBigint x) (S.floatval arg args)
    else if sym = S.bigintPsc then bpCompareBigintBigint x (bigintOf arg args)
    else -1
  | _ => -1

/-- The name `{}` of arrays. -/
def isArrayName (sym : Sym) : Bool := S.name sym == [123, 125]

mutual

def bpCompare : TabledTerm → TabledTerm → ℤ
  | .atm w, .atm v => S.compareAtomAtom w v
  | .atm w, .str _ sym arg args => S.compareAtomStruct w sym arg args
  | .atm _, _ => -1
  -- a numbered variable comes here as a list, too
  | .var n, u =>
    match u with
    | .lst .. => S.wild n u
    | _ => 1
  | .lst cell car cdr, u =>
    match u with
    | .lst _ car' cdr' =>
      if sameAddr (.lst cell car cdr) u then 0
      else
        let c := bpCompare car car'
        if c ≠ 0 then c else bpCompare cdr cdr'
    | _ => 1
  | .str cell sym arg args, u =>
    if sym = S.floatPsc then S.compareFloatUnknown (S.floatval arg args) u
    else if sym = S.bigintPsc then S.compareBigintUnknown (bigintOf arg args) u
    else
      match u with
      | .atm _ => 1
      | .str _ sym' arg' args' =>
        if sym' = S.floatPsc then 1
        else if sameAddr (.str cell sym arg args) u then 0
        else if args.length ≠ args'.length then
          if S.isArrayName sym ∧ S.isArrayName sym' then
            let c := bpCompare arg arg'
            let c := if c ≠ 0 then c else bpCompareArgs args args'
            if c ≠ 0 then c else if args.length < args'.length then -1 else 1
          else compareVals (args.length + 1) (args'.length + 1)
        else
          let c := S.comalpha sym sym'
          let c := if c ≠ 0 then c else bpCompare arg arg'
          if c ≠ 0 then c else bpCompareArgs args args'
      | _ => -1

def bpCompareArgs : List TabledTerm → List TabledTerm → ℤ
  | t :: ts, u :: us =>
    let c := bpCompare t u
    if c ≠ 0 then c else bpCompareArgs ts us
  | _, _ => 0

end

def tableAnsIsLt (t u : TabledTerm) : Bool :=
  match t, u with
  | .atm w, .atm v => if isInt w && isInt v then intval w < intval v else S.bpCompare t u < 0
  | _, _ => S.bpCompare t u < 0

def tableAnsIsGt (t u : TabledTerm) : Bool :=
  match t, u with
  | .atm w, .atm v => if isInt w && isInt v then intval w > intval v else S.bpCompare t u > 0
  | _, _ => S.bpCompare t u > 0

end Standard

end Picat
