import Mathlib.Tactic.Ring
import Picat.Lib.BoolSums
import Picat.Smt.BoolSteps

/-!
# Domains and tables

* `step_tableIn` : exactly one tuple is chosen, and the chosen tuple is equal to the variables; `step_tableNotin` : in
  every tuple an element is different.
-/

namespace Picat.Smt
open FreshVariables Function List

section
variable {tab : Table} {st st' : Dump} {b x v t : Opd} {rel : Rel} {const : ℤ} {ts : Terms} {vs vars : List Opd}
  {l : List ℤ} {a : ℤ} {n : ℕ} {τ : ℕ → ℤ}

/-! ## Reified elements -/

theorem step_reified (hts : TermsBelow st.next ts) :
    Step tab st (dumpReifImpConstr .reif (.var st.next) rel const ts (newDvar 0 1 st).2) free
      (fun τ => (Opd.var st.next).True τ ↔ arithHolds τ rel const ts) free := by
  have h1 := @step_newBool tab st _ (@local_arith st ts const rel hts)
  have h2 := @step_reifImp tab (newDvar 0 1 st).2 (.var st.next) ts const rel .reif isBool_newDvar.1
    (hts.mono h1.ext.le)
  exact (h1.trans h2 (fun τ _ hr => hr) (local_bit (local_arith hts))).imp (fun _ _ h => h) (fun _ _ h => h.2)
    fun _ _ _ => trivial

theorem isBool_reified (hts : TermsBelow st.next ts) :
    IsBool (dumpReifImpConstr .reif (.var st.next) rel const ts (newDvar 0 1 st).2) (.var st.next) :=
  isBool_newDvar.step (@step_reifImp noTable (newDvar 0 1 st).2 (.var st.next) ts const rel .reif isBool_newDvar.1
    (hts.mono (Nat.le_succ _)))

theorem termsBelow_single {c : ℤ} (hx : x.Below n) : TermsBelow n [(c, x)] :=
  fun _ ht => mem_singleton.1 ht ▸ hx

theorem arithHolds_single : arithHolds τ rel (-a) [(1, x)] ↔ rel.Holds (x.val τ) a := by
  unfold arithHolds
  rw [termsVal_single]
  cases rel <;> unfold Rel.Holds <;> omega

theorem step_reifElements (hx : x.Below st.next) : Step tab st (dumpReifElements rel x l st).2 free
        (fun τ => List.Forall₂ (fun be e => Opd.True τ be ↔ rel.Holds (x.val τ) e) (dumpReifElements rel x l st).1 l)
        free ∧
      ∀ be ∈ (dumpReifElements rel x l st).1, IsBool (dumpReifElements rel x l st).2 be := by
  induction l generalizing st with
  | nil =>
    refine ⟨(Step.refl tab st).imp (fun _ _ h => h) (fun _ _ _ => List.Forall₂.nil) fun _ _ h => h, ?_⟩
    intro be hbe
    exact absurd hbe not_mem_nil
  | cons e l ih =>
    have hts := termsBelow_single (c := 1) hx
    have h1 := @step_reified tab st rel (-e) _ hts
    obtain ⟨h2, hbools⟩ := ih (hx.mono h1.ext.le)
    refine ⟨(h1.trans h2 (fun _ _ _ => trivial) (local_true _)).imp (fun _ _ h => h) (fun τ _ hq => ?_)
      fun _ _ _ => trivial, fun be hbe => ?_⟩
    · exact List.Forall₂.cons (hq.1.trans arithHolds_single) hq.2
    · rcases mem_cons.1 hbe with rfl | hbe
      · exact (isBool_reified hts).step h2
      · exact hbools be hbe

/-! ## Reified domains -/

theorem maxHolds_iff : maxHolds τ vs t ↔ (vs.map (Opd.val τ)).max? = some (t.val τ) := by
  unfold maxHolds
  rw [List.max?_eq_some_iff, mem_map, forall_mem_map]
  simp only [eq_comm]

theorem minHolds_iff : minHolds τ vs t ↔ (vs.map (Opd.val τ)).min? = some (t.val τ) := by
  unfold minHolds
  rw [List.min?_eq_some_iff, mem_map, forall_mem_map]
  simp only [eq_comm, ge_iff_le]

section
variable (hne : vs ≠ []) (hvs : ∀ v ∈ vs, IsBool st v) (hb : IsBool st b) (hτ : st.Sat τ)
include hne hvs hb hτ

theorem maxHolds_bits : maxHolds τ vs b ↔ (b.True τ ↔ ∃ v ∈ vs, v.True τ) := by
  have hbits : BoolSums.Bits (vs.map (Opd.val τ)) := by
    intro w hw
    obtain ⟨v, hv, rfl⟩ := mem_map.1 hw
    exact (hvs v hv).bit τ hτ
  rw [maxHolds_iff, BoolSums.max?_eq_some_iff (fun h => hne (map_eq_nil_iff.1 h)) hbits (hb.bit τ hτ)]
  simp only [mem_map, exists_exists_and_eq_and]
  rfl

theorem minHolds_bits : minHolds τ vs b ↔ (b.True τ ↔ ∀ v ∈ vs, v.True τ) := by
  have hbits : BoolSums.Bits (vs.map (Opd.val τ)) := by
    intro w hw
    obtain ⟨v, hv, rfl⟩ := mem_map.1 hw
    exact (hvs v hv).bit τ hτ
  rw [minHolds_iff, BoolSums.min?_eq_some_iff (fun h => hne (map_eq_nil_iff.1 h)) hbits (hb.bit τ hτ), forall_mem_map]
  rfl

end

theorem exists_mem_of_forall₂ {R : Opd → ℤ → Prop} (h : List.Forall₂ R vs l) {P : Opd → Prop} {Q : ℤ → Prop}
    (hPQ : ∀ be e, R be e → (P be ↔ Q e)) : (∃ be ∈ vs, P be) ↔ ∃ e ∈ l, Q e := by
  induction h with
  | nil => exact iff_of_false (fun ⟨_, h, _⟩ => not_mem_nil h) fun ⟨_, h, _⟩ => not_mem_nil h
  | cons hR _ ih =>
    rw [exists_mem_cons_iff, exists_mem_cons_iff]
    exact or_congr (hPQ _ _ hR) ih

theorem step_reifIn (hb : IsBool st b) (hx : x.Below st.next) (hl : l ≠ []) :
    Step tab st (dumpReifInConstr b x l st) (fun τ => b.True τ ↔ x.val τ ∈ l) (fun τ => b.True τ ↔ x.val τ ∈ l)
      free := by
  obtain ⟨h, hbools⟩ := @step_reifElements tab st x .eq l hx
  have hne : (dumpReifElements .eq x l st).1 ≠ [] := by
    cases l with
    | nil => exact absurd rfl hl
    | cons e l => exact cons_ne_nil _ _
  have hb' := hb.step h
  have hmax := @step_maxlist tab (dumpReifElements .eq x l st).2 b (dumpReifElements .eq x l st).1
    (fun v hv => (hbools v hv).1) hb'.1 hne
  refine h.define hmax (fun τ hτ => ?_) fun τ τ' hag => ?_
  · rw [maxHolds_bits hne hbools hb' hτ, exists_mem_of_forall₂ (h.ext.sound τ hτ).2 fun _ _ hR => hR]
    refine iff_congr Iff.rfl ⟨fun ⟨e, he, h⟩ => ?_, fun h => ⟨_, h, rfl⟩⟩
    have hxe : x.val τ = e := h
    rw [hxe]
    exact he
  · change (b.val τ' = 1 ↔ x.val τ' ∈ l) ↔ (b.val τ = 1 ↔ x.val τ ∈ l)
    rw [hb.1.val_eq hag, hx.val_eq hag]

theorem step_reifNotin (hb : IsBool st b) (hx : x.Below st.next) (hl : l ≠ []) :
    Step tab st (dumpReifNotinConstr b x l st) (fun τ => b.True τ ↔ x.val τ ∉ l) (fun τ => b.True τ ↔ x.val τ ∉ l)
      free := by
  obtain ⟨h, hbools⟩ := @step_reifElements tab st x .neq l hx
  have hne : (dumpReifElements .neq x l st).1 ≠ [] := by
    cases l with
    | nil => exact absurd rfl hl
    | cons e l => exact cons_ne_nil _ _
  have hb' := hb.step h
  have hmin := @step_minlist tab (dumpReifElements .neq x l st).2 b (dumpReifElements .neq x l st).1
    (fun v hv => (hbools v hv).1) hb'.1 hne
  refine h.define hmin (fun τ hτ => ?_) fun τ τ' hag => ?_
  · have hex := exists_mem_of_forall₂ (h.ext.sound τ hτ).2 fun _ _ hR => not_congr hR
    rw [minHolds_bits hne hbools hb' hτ]
    refine iff_congr Iff.rfl (not_iff_not.1 ?_)
    push Not
    refine hex.trans ⟨fun ⟨e, he, h⟩ => ?_, fun h => ⟨_, h, fun hne => hne rfl⟩⟩
    have hxe : x.val τ = e := not_not.1 h
    rw [hxe]
    exact he
  · change (b.val τ' = 1 ↔ x.val τ' ∉ l) ↔ (b.val τ = 1 ↔ x.val τ ∉ l)
    rw [hb.1.val_eq hag, hx.val_eq hag]

theorem local_eqVia (hinv : st.Inv tab) (hv : v.Below st.next) : Local st.next fun τ => EqVia tab τ v a := by
  intro τ τ' hag
  cases v with
  | int z => exact Iff.rfl
  | var i =>
    unfold EqVia
    dsimp only
    cases hb : tab i a with
    | some b =>
      change b.val τ' = 1 ↔ b.val τ = 1
      rw [(hinv.isBool i a b (hinv.keeps i a b hb)).1.val_eq hag]
    | none =>
      change τ' i = a ↔ τ i = a
      rw [hag i hv]

theorem eqVia_var {i : ℕ} (hnone : tab i a = none) : EqVia tab τ (.var i) a ↔ τ i = a := by
  unfold EqVia
  dsimp only
  rw [hnone]

theorem step_lookup (hinv : st.Inv tab) (hv : v.Below st.next) :
    Step tab st (dumpReifVEqC v a st).2 free (fun τ => (dumpReifVEqC v a st).1.True τ ↔ EqVia tab τ v a) free ∧
      IsBool (dumpReifVEqC v a st).2 (dumpReifVEqC v a st).1 := by
  cases v with
  | int z =>
    unfold dumpReifVEqC
    dsimp only
    refine ⟨(Step.refl tab st).imp (fun _ _ h => h) (fun τ _ _ => ?_) fun _ _ h => h, ?_⟩
    · unfold EqVia Opd.True
      split_ifs with h
      · exact iff_of_true rfl h
      · exact iff_of_false (by decide : (0 : ℤ) ≠ 1) h
    · split_ifs
      · exact ⟨trivial, fun _ _ => .inr rfl, fun z hz => by cases hz; exact .inr rfl⟩
      · exact ⟨trivial, fun _ _ => .inl rfl, fun z hz => by cases hz; exact .inl rfl⟩
  | var i =>
    unfold dumpReifVEqC
    dsimp only
    cases hb : st.table i a with
    | some b =>
      refine ⟨(Step.refl tab st).imp (fun _ _ h => h) (fun τ hτ _ => ?_) fun _ _ h => h, hinv.isBool i a b hb⟩
      dsimp only
      cases htab : tab i a with
      | some b' =>
        have hsame := (hinv.keeps i a b' htab).symm.trans hb
        unfold EqVia
        dsimp only
        rw [htab, Option.some.inj hsame]
      | none => exact (hinv.defined i a b hb htab τ hτ).trans (eqVia_var htab).symm
    | none =>
      have htab : tab i a = none := by
        by_contra hsome
        obtain ⟨b', hb'⟩ := Option.ne_none_iff_exists'.1 hsome
        rw [hinv.keeps i a b' hb'] at hb
        cases hb
      have hts := termsBelow_single (c := 1) hv
      have h := @step_reified tab st .eq (-a) _ hts
      have hbool := @isBool_reified st .eq (-a) _ hts
      have hinv' := h.inv hinv
      have hq : ∀ τ, (dumpReifImpConstr .reif (.var st.next) .eq (-a) [(1, .var i)] (newDvar 0 1 st).2).Sat τ →
          ((Opd.var st.next).True τ ↔ τ i = a) :=
        fun τ hτ => (h.ext.sound τ hτ).2.trans arithHolds_single
      refine ⟨⟨h.ext.imp (fun _ _ h => h) (fun τ hτ _ => (hq τ hτ).trans (eqVia_var htab).symm) fun _ _ h => h,
        h.grows, fun _ => ?_⟩, ⟨hbool.1, hbool.2, hbool.3⟩⟩
      have hupdate : ∀ i' a', ¬ (i' = i ∧ a' = a) →
          update st.table i (update (st.table i) a (some (.var st.next))) i' a' = st.table i' a' := by
        intro i' a' hne
        by_cases hi : i' = i
        · subst hi
          rw [update_self, update_of_ne fun ha => hne ⟨rfl, ha⟩]
        · rw [update_of_ne hi]
      have hself : update st.table i (update (st.table i) a (some (.var st.next))) i a = some (.var st.next) := by
        rw [update_self, update_self]
      refine ⟨hinv'.loc, fun i' a' b' hb' => ?_, fun i' a' b' hb' => ?_, fun i' a' b' hb' hnone τ hτ => ?_⟩
      · have hne : ¬ (i' = i ∧ a' = a) := by
          intro hp
          obtain ⟨rfl, rfl⟩ := hp
          rw [htab] at hb'
          cases hb'
        exact (hupdate i' a' hne).trans (hinv.keeps i' a' b' hb')
      · by_cases hhere : i' = i ∧ a' = a
        · obtain ⟨rfl, rfl⟩ := hhere
          cases hself.symm.trans hb'
          exact ⟨hbool.1, hbool.2, hbool.3⟩
        · have hold := hinv'.isBool i' a' b' ((hupdate i' a' hhere).symm.trans hb')
          exact ⟨hold.1, hold.2, hold.3⟩
      · by_cases hhere : i' = i ∧ a' = a
        · obtain ⟨rfl, rfl⟩ := hhere
          cases hself.symm.trans hb'
          exact hq τ hτ
        · exact hinv'.defined i' a' b' ((hupdate i' a' hhere).symm.trans hb') hnone τ hτ

/-! ## Tuples -/

variable {tuple : List Cell} {tuples : List (List Cell)} {coe : ℤ}

theorem local_tuple (hinv : st.Inv tab) (hvars : OpdsBelow st.next vars) :
    Local st.next fun τ => tupleHolds tab τ vars tuple := by
  intro τ τ' hag
  apply forall₂_congr
  intro p hp
  obtain ⟨v, c⟩ := p
  cases c with
  | any => exact Iff.rfl
  | int a => exact local_eqVia hinv (hvars v (of_mem_zip hp).1) τ τ' hag

theorem tupleHolds_cons {c : Cell} :
    tupleHolds tab τ (v :: vars) (c :: tuple) ↔ cellHolds tab τ v c ∧ tupleHolds tab τ vars tuple := by
  unfold tupleHolds
  rw [zip_cons_cons, forall_mem_cons]

theorem termsVal_cons {c : ℤ} : termsVal τ ((c, x) :: ts) = c * x.val τ + termsVal τ ts := by
  unfold termsVal
  rw [map_cons, sum_cons]

/-- The terms count the elements that are equal to the variables. -/
def Counts (tab : Table) (τ : ℕ → ℤ) (coe : ℤ) (vars : List Opd) (tuple : List Cell) (ts ts' : Terms) : Prop :=
  ∃ k : ℕ, termsVal τ ts' = termsVal τ ts + coe * k ∧ k ≤ vars.length ∧ (k = vars.length ↔ tupleHolds tab τ vars tuple)

theorem exists_dumpTupleTerms (hinv : st.Inv tab) (hvars : OpdsBelow st.next vars)
    (hlen : tuple.length = vars.length) (hts : TermsBelow st.next ts) :
    ∃ ts' st', dumpTupleTerms coe vars tuple ts st = some (ts', st') ∧ TermsBelow st'.next ts' ∧
      Step tab st st' free (fun τ => Counts tab τ coe vars tuple ts ts') free := by
  induction vars generalizing tuple ts st with
  | nil =>
    refine ⟨ts, st, rfl, hts, (Step.refl tab st).imp (fun _ _ h => h) (fun τ _ _ => ?_) fun _ _ h => h⟩
    exact ⟨0, by simp, le_refl 0, iff_of_true rfl fun p hp => absurd hp not_mem_nil⟩
  | cons v vars ih =>
    cases tuple with
    | nil => exact absurd hlen (by simp)
    | cons c tuple =>
      have hlen' : tuple.length = vars.length := Nat.succ.inj hlen
      have hvars' : OpdsBelow st.next vars := fun u hu => hvars u (mem_cons_of_mem v hu)
      cases c with
      | any =>
        obtain ⟨ts', st', hd, hts', h⟩ := @ih st ((coe, .int 1) :: ts) tuple hinv hvars' hlen' fun t ht => by
          rcases mem_cons.1 ht with rfl | ht
          · trivial
          · exact hts t ht
        refine ⟨ts', st', hd, hts', h.imp (fun _ _ h => h) (fun τ _ hq => ?_) fun _ _ h => h⟩
        obtain ⟨k, hval, hk, hall⟩ := hq
        rw [termsVal_cons] at hval
        refine ⟨k + 1, ?_, by rw [length_cons]; omega, ?_⟩
        · rw [hval]
          change coe * 1 + _ + _ = _
          push_cast
          ring
        · have hcell : tupleHolds tab τ (v :: vars) (.any :: tuple) ↔ tupleHolds tab τ vars tuple := by
            rw [tupleHolds_cons]
            exact and_iff_right trivial
          rw [hcell, ← hall, length_cons]
          omega
      | int a =>
        obtain ⟨h1, hbool⟩ := @step_lookup tab st v a hinv (hvars v mem_cons_self)
        obtain ⟨ts', st', hd, hts', h2⟩ := @ih (dumpReifVEqC v a st).2 ((coe, (dumpReifVEqC v a st).1) :: ts) tuple
          (h1.inv hinv) (fun u hu => (hvars' u hu).mono h1.ext.le) hlen' fun t ht => by
            rcases mem_cons.1 ht with rfl | ht
            · exact hbool.1
            · exact (hts t ht).mono h1.ext.le
        refine ⟨ts', st', hd, hts', (h1.trans h2 (fun _ _ _ => trivial) (local_true _)).imp (fun _ _ h => h)
          (fun τ hτ hq => ?_) fun _ _ _ => trivial⟩
        obtain ⟨heq, k, hval, hk, hall⟩ := hq
        have hbit := hbool.bit τ (h2.ext.sound τ hτ).1
        rw [termsVal_cons] at hval
        rw [Opd.True] at heq
        rcases hbit with h0 | h1
        · refine ⟨k, ?_, by rw [length_cons]; omega, ?_⟩
          · rw [hval, h0]
            ring
          · rw [tupleHolds_cons]
            apply iff_of_false (by rw [length_cons]; omega)
            intro h
            have := heq.2 h.1
            omega
        · refine ⟨k + 1, ?_, by rw [length_cons]; omega, ?_⟩
          · rw [hval, h1]
            push_cast
            ring
          · rw [tupleHolds_cons, ← hall, length_cons]
            refine Iff.trans ?_ (and_iff_right (heq.1 h1)).symm
            omega

/-! ## Positive tables -/

section
variable (hinv : st.Inv tab) (hvars : OpdsBelow st.next vars)
include hinv hvars

theorem exists_dumpEntailsEqTuple (hlen : tuple.length = vars.length) (hb : IsBool st b) :
    ∃ st', dumpEntailsEqTupleConstr vars tuple b st = some st' ∧
      Step tab st st' (fun τ => b.True τ → tupleHolds tab τ vars tuple)
        (fun τ => b.True τ → tupleHolds tab τ vars tuple) free := by
  obtain ⟨ts', st', hd, hts', h⟩ := @exists_dumpTupleTerms tab st [] vars tuple 1 hinv hvars hlen
    fun t ht => absurd ht not_mem_nil
  have hb' := hb.step h
  have hall : TermsBelow st'.next ((-(vars.length : ℤ), b) :: ts') := by
    intro t ht
    rcases mem_cons.1 ht with rfl | ht
    · exact hb'.1
    · exact hts' t ht
  refine ⟨_, ?_, h.define (@step_arith tab st' _ 0 .ge hall) (fun τ hτ => ?_) fun τ τ' hag => ?_⟩
  · unfold dumpEntailsEqTupleConstr
    rw [hd]
    rfl
  · obtain ⟨k, hval, hk, heq⟩ := (h.ext.sound τ hτ).2
    have hbit := hb'.bit τ hτ
    unfold arithHolds Rel.Holds
    rw [termsVal_cons, hval, ← heq, Opd.True]
    change -(vars.length : ℤ) * b.val τ + (0 + 1 * (k : ℤ)) + 0 ≥ 0 ↔ _
    rcases hbit with h0 | h1
    · rw [h0]
      omega
    · rw [h1]
      omega
  · refine imp_congr ?_ (local_tuple hinv hvars τ τ' hag)
    unfold Opd.True
    rw [hb.1.val_eq hag]

theorem local_exists_tuple : Local st.next fun τ => ∃ tuple ∈ tuples, tupleHolds tab τ vars tuple := by
  intro τ τ' hag
  exact exists_congr fun tuple => and_congr_right fun _ => local_tuple hinv hvars τ τ' hag

section
variable (hlen : ∀ tuple ∈ tuples, tuple.length = vars.length)
include hlen

/-- By induction on the tuples: the first that is equal to the variables is chosen, unless one was chosen before. -/
theorem exists_dumpTableInAux (hts : TermsBelow st.next ts) : ∃ st', dumpTableInConstrAux vars tuples ts st = some st' ∧
      Step tab st st' (fun τ => termsVal τ ts = 1 ∨ termsVal τ ts = 0 ∧ ∃ tuple ∈ tuples, tupleHolds tab τ vars tuple)
        (fun τ => termsVal τ ts = 1 ∨ ∃ tuple ∈ tuples, tupleHolds tab τ vars tuple) free := by
  induction tuples generalizing ts st with
  | nil =>
    refine ⟨_, rfl, (@step_arith tab st ts (-1) .eq hts).imp (fun τ _ hp => ?_) (fun τ _ hq => ?_) fun _ _ h => h⟩
    · unfold arithHolds Rel.Holds
      rcases hp with h1 | ⟨_, tuple, htuple, _⟩
      · omega
      · exact absurd htuple not_mem_nil
    · unfold arithHolds Rel.Holds at hq
      exact .inl (by omega)
  | cons tuple tuples ih =>
    have hlocT := @local_tuple tab st vars tuple hinv hvars
    have hlocS : Local st.next fun τ => termsVal τ ts = 0 := by
      intro τ τ' hag
      dsimp only
      rw [hts.val_eq hag]
    have hlocP : Local st.next fun τ => termsVal τ ts = 1 ∨ termsVal τ ts = 0 ∧
        ∃ tuple' ∈ tuple :: tuples, tupleHolds tab τ vars tuple' := by
      intro τ τ' hag
      refine or_congr ?_ (and_congr (hlocS τ τ' hag) (local_exists_tuple hinv hvars τ τ' hag))
      rw [hts.val_eq hag]
    have hchoice := hlocS.and hlocT
    have h1 := (@step_newBool tab st _ hchoice).keep hlocP
    have hb1 : IsBool (newDvar 0 1 st).2 (.var st.next) := isBool_newDvar
    obtain ⟨st2, hd2, h2⟩ := @exists_dumpEntailsEqTuple tab (newDvar 0 1 st).2 (.var st.next) vars tuple
      (h1.inv hinv) (fun v hv => (hvars v hv).mono h1.ext.le) (hlen tuple mem_cons_self) hb1
    have hb2 := hb1.step h2
    have hts2 : TermsBelow st2.next ((1, .var st.next) :: ts) := by
      intro t ht
      rcases mem_cons.1 ht with rfl | ht
      · exact hb2.1
      · exact ((hts t ht).mono h1.ext.le).mono h2.ext.le
    obtain ⟨st3, hd3, h3⟩ := @ih st2 ((1, .var st.next) :: ts) (h2.inv (h1.inv hinv))
      (fun v hv => ((hvars v hv).mono h1.ext.le).mono h2.ext.le)
      (fun tuple' h => hlen tuple' (mem_cons_of_mem tuple h)) hts2
    have hr1 := (local_bit hchoice).and (hlocP.mono (Nat.le_succ st.next))
    have h12 := h1.trans h2 (fun τ _ hr h => ((hr.1.1 h).2)) hr1
    have hr12 := (hr1.mono h2.ext.le).and (local_true st2.next)
    refine ⟨st3, ?_, (h12.trans h3 (fun τ hτ hr => ?_) hr12).imp (fun _ _ h => ⟨trivial, h⟩) (fun τ hτ hq => ?_)
      fun _ _ _ => trivial⟩
    · change (dumpEntailsEqTupleConstr vars tuple (.var st.next) (newDvar 0 1 st).2).bind _ = _
      rw [hd2]
      exact hd3
    · obtain ⟨⟨hbit, hp⟩, _⟩ := hr
      have h01 : τ st.next = 0 ∨ τ st.next = 1 := hb2.bit τ hτ
      rw [termsVal_cons]
      change 1 * τ st.next + _ = 1 ∨ 1 * τ st.next + _ = 0 ∧ _
      rcases hp with hs | ⟨hs, tuple', hmem, hholds⟩
      · have : ¬ τ st.next = 1 := fun h1 => by
          have := (hbit.1 h1).1
          omega
        exact .inl (by omega)
      · by_cases ht : tupleHolds tab τ vars tuple
        · have := hbit.2 ⟨hs, ht⟩
          exact .inl (by omega)
        · have : ¬ τ st.next = 1 := fun h1 => ht (hbit.1 h1).2
          refine .inr ⟨by omega, tuple', ?_, hholds⟩
          rcases mem_cons.1 hmem with rfl | hmem
          · exact absurd hholds ht
          · exact hmem
    · obtain ⟨⟨_, hentails⟩, hrest⟩ := hq
      have h01 : τ st.next = 0 ∨ τ st.next = 1 := hb2.bit τ (h3.ext.sound τ hτ).1
      rw [termsVal_cons] at hrest
      rcases hrest with hs | ⟨tuple', hmem, hholds⟩
      · have hs' : 1 * τ st.next + termsVal τ ts = 1 := hs
        rcases h01 with h0 | h1
        · exact .inl (by omega)
        · exact .inr ⟨tuple, mem_cons_self, hentails h1⟩
      · exact .inr ⟨tuple', mem_cons_of_mem tuple hmem, hholds⟩

theorem exists_dumpTableIn : ∃ st', dumpTableInConstr vars tuples st = some st' ∧
      Step tab st st' (fun τ => ∃ tuple ∈ tuples, tupleHolds tab τ vars tuple)
        (fun τ => ∃ tuple ∈ tuples, tupleHolds tab τ vars tuple) free := by
  obtain ⟨st', hd, h⟩ := @exists_dumpTableInAux tab st [] vars tuples hinv hvars hlen fun t ht => absurd ht not_mem_nil
  have hnil : ∀ τ, termsVal τ [] = 0 := fun _ => rfl
  refine ⟨st', hd, h.imp (fun τ _ hp => .inr ⟨hnil τ, hp⟩) (fun τ _ hq => ?_) fun _ _ h => h⟩
  rw [hnil τ] at hq
  exact hq.resolve_left (by decide)

end

theorem exists_dumpNotinTuple (hlen : tuple.length = vars.length) :
    ∃ st', dumpNotinTupleConstr vars tuple st = some st' ∧
      Step tab st st' (fun τ => ¬ tupleHolds tab τ vars tuple) (fun τ => ¬ tupleHolds tab τ vars tuple) free := by
  obtain ⟨ts', st', hd, hts', h⟩ := @exists_dumpTupleTerms tab st [] vars tuple (-1) hinv hvars hlen
    fun t ht => absurd ht not_mem_nil
  refine ⟨_, ?_, h.define (@step_arith tab st' _ (vars.length - 1) .ge hts') (fun τ hτ => ?_)
    fun τ τ' hag => not_congr (local_tuple hinv hvars τ τ' hag)⟩
  · unfold dumpNotinTupleConstr
    rw [hd]
    rfl
  · obtain ⟨k, hval, hk, heq⟩ := (h.ext.sound τ hτ).2
    unfold arithHolds Rel.Holds
    rw [hval, ← heq]
    change 0 + -1 * (k : ℤ) + _ ≥ 0 ↔ _
    omega

theorem exists_dumpTableNotin (hlen : ∀ tuple ∈ tuples, tuple.length = vars.length) :
    ∃ st', dumpTableNotinConstr vars tuples st = some st' ∧
      Step tab st st' (fun τ => ∀ tuple ∈ tuples, ¬ tupleHolds tab τ vars tuple)
        (fun τ => ∀ tuple ∈ tuples, ¬ tupleHolds tab τ vars tuple) free := by
  induction tuples generalizing st with
  | nil =>
    refine ⟨st, rfl, (Step.refl tab st).congr fun τ _ => iff_of_true trivial fun tuple h => ?_⟩
    exact absurd h not_mem_nil
  | cons tuple tuples ih =>
    obtain ⟨st1, hd1, h1⟩ := @exists_dumpNotinTuple tab st vars tuple hinv hvars (hlen tuple mem_cons_self)
    obtain ⟨st2, hd2, h2⟩ := @ih st1 (h1.inv hinv) (fun v hv => (hvars v hv).mono h1.ext.le)
      fun tuple' h => hlen tuple' (mem_cons_of_mem tuple h)
    have hloc : Local st.next fun τ => ∀ tuple' ∈ tuples, ¬ tupleHolds tab τ vars tuple' :=
      fun τ τ' hag => forall₂_congr fun tuple' _ => not_congr (local_tuple hinv hvars τ τ' hag)
    refine ⟨st2, ?_, (h1.and h2 hloc).congr fun τ _ => by rw [forall_mem_cons]⟩
    unfold dumpTableNotinConstr
    rw [hd1]
    exact hd2

end

theorem step_outof (hx : x.Below st.next) (hvs : OpdsBelow st.next vs) :
    Step tab st (dumpOutofConstr x vs st) (fun τ => ∀ y ∈ vs, x.val τ ≠ y.val τ)
      (fun τ => ∀ y ∈ vs, x.val τ ≠ y.val τ) free := by
  induction vs generalizing st with
  | nil => exact (Step.refl tab st).congr fun τ _ => iff_of_true trivial fun y h => absurd h not_mem_nil
  | cons y vs ih =>
    have hvs' : OpdsBelow st.next vs := fun u hu => hvs u (mem_cons_of_mem y hu)
    have h1 := @step_arith tab st _ 0 .neq (@termsBelow_pair x y _ 1 (-1) hx (hvs y mem_cons_self))
    have hloc : Local st.next fun τ => ∀ y ∈ vs, x.val τ ≠ y.val τ := by
      intro τ τ' hag
      apply forall₂_congr
      intro u hu
      rw [hx.val_eq hag, (hvs' u hu).val_eq hag]
    apply (h1.and (ih hx hvs') hloc).congr
    intro τ _
    rw [forall_mem_cons]
    refine and_congr ?_ Iff.rfl
    unfold arithHolds Rel.Holds
    rw [termsVal_pair]
    omega

theorem step_alldifferent (hvs : OpdsBelow st.next vs) :
    Step tab st (dumpAlldifferentConstr vs st) (fun τ => (vs.map (Opd.val τ)).Nodup)
      (fun τ => (vs.map (Opd.val τ)).Nodup) free := by
  induction vs generalizing st with
  | nil => exact (Step.refl tab st).congr fun τ _ => iff_of_true trivial nodup_nil
  | cons x vs ih =>
    have hvs' : OpdsBelow st.next vs := fun u hu => hvs u (mem_cons_of_mem x hu)
    have h1 := @step_outof tab st x vs (hvs x mem_cons_self) hvs'
    have hloc : Local st.next fun τ => (vs.map (Opd.val τ)).Nodup := by
      intro τ τ' hag
      dsimp only
      rw [map_congr_left fun u hu => (hvs' u hu).val_eq hag]
    apply (h1.and (ih fun u hu => (hvs' u hu).mono h1.ext.le) hloc).congr
    intro τ _
    rw [map_cons, nodup_cons, mem_map]
    refine and_congr ?_ Iff.rfl
    push Not
    exact forall₂_congr fun u _ => ne_comm

end

end Picat.Smt
