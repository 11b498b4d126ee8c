import Picat.Domain.Narrow

/-!
# The representation invariant over runs of the primitives

A variable is created as an interval and then narrowed by any sequence of the primitives. The invariant of its
representation holds in every state that a run reaches, and each primitive changes the set exactly, as long as
the elements a region cuts off between a bound and the new one can be counted in the 31 bits of an `int`.

* `Reaches` : the states of a run whose counts fit; `domainPrimitives_reaches` : the invariant over runs.
-/

namespace Picat

open BitScan Finset

/-! ## The invariant -/

noncomputable def Dvar.dom (d : Dvar) : Finset ℤ :=
  match d.var with
  | .int v => {v}
  | _ => d.elems

/-- The representation invariant: the size of an interval is its length; the vector of a bit-vector domain
covers the bounds, their bits are set, and the size is the number of bits set between them. -/
structure Dvar.RepInv (d : Dvar) : Prop where
  it : d.type = .it → d.size = d.last - d.first + 1
  bv : ∀ b, d.type = .bv b → b.Filled ∧ b.low ≤ d.first ∧ d.last ≤ b.up ∧ b.has d.first = true ∧
    b.has d.last = true ∧ d.size = (members b.has d.first d.last).card

/-- The invariant of a variable: a free one has a choice left. -/
structure Dvar.Inv (d : Dvar) : Prop where
  rep : d.RepInv
  le : d.first ≤ d.last
  susp : d.var = .susp → d.first < d.last
  not_ref : ∀ p, d.var ≠ .ref p

section
variable {d d' : Dvar}

theorem Dvar.Inv.shape (h : d.Inv) : d.Shape := by
  cases hd : d.type with
  | it => exact ⟨h.le, by rw [hd]; rfl, by rw [hd]; rfl, fun b hb => by rw [hd] at hb; contradiction⟩
  | bv b =>
    obtain ⟨hfill, -, -, hf, hl, -⟩ := h.rep.bv b hd
    refine ⟨h.le, by rw [hd]; exact hf, by rw [hd]; exact hl, fun b' hb' => ?_⟩
    rw [hd] at hb'
    rwa [← DvType.bv.inj hb']

theorem Dvar.Inv.assign (h : d.Inv) (v : ℤ) : (assignDvar d v).Inv := by
  refine ⟨⟨h.rep.it, h.rep.bv⟩, h.le, fun hsusp => ?_, fun p hp => ?_⟩
  · simp [assignDvar] at hsusp
  · simp [assignDvar] at hp

theorem Dvar.Inv.size_eq (h : d.Inv) : d.size = d.elems.card := by
  cases hd : d.type with
  | it =>
    have hle := h.le
    rw [h.rep.it hd, Dvar.elems, hd, members_true fun x _ _ => DvType.has_it x, Int.card_Icc]
    omega
  | bv b =>
    rw [(h.rep.bv b hd).2.2.2.2.2, Dvar.elems, hd]
    rfl

theorem Dvar.Inv.exact (h : d.Inv) (hv : d.var = .susp) : d.Exact := ⟨h.size_eq, h.susp hv⟩

theorem Dvar.Shape.repInv (h : d.Shape) (hsize : d.size = d.elems.card) : d.RepInv := by
  refine ⟨fun hd => ?_, fun b hb => ?_⟩
  · have hle := h.le
    rw [hsize, Dvar.elems, hd, members_true fun x _ _ => DvType.has_it x, Int.card_Icc]
    omega
  · have hf := h.first_mem
    have hl := h.last_mem
    rw [hb] at hf hl
    refine ⟨h.filled b hb, h.low_le hb, h.last_le_up hb, hf, hl, ?_⟩
    rw [hsize, Dvar.elems, hb]
    rfl

theorem Dvar.dom_susp (hv : d.var = .susp) : d.dom = d.elems := by
  unfold Dvar.dom
  rw [hv]

theorem Dvar.dom_int {v : ℤ} (hv : d.var = .int v) : d.dom = {v} := by
  unfold Dvar.dom
  rw [hv]

theorem Dvar.Shape.not_singleton (h : d.Shape) (hlt : d.first < d.last) (v : ℤ) : d.elems ≠ {v} := by
  intro hv
  have hf := h.first_mem_elems
  have hl := h.last_mem_elems
  rw [hv, mem_singleton] at hf hl
  omega

/-! ## The primitives -/

inductive DomOp where
  /-- Exclude one element. -/
  | setFalse (elm : ℤ)
  /-- Exclude an interval. -/
  | excludeInterval (from' to' : ℤ)
  /-- Restrict to a region. -/
  | region (from' to' : ℤ)

def DomOp.noint : DomOp → Dvar → Except Stop Dvar
  | setFalse elm, d => domainSetFalseNoint d elm
  | excludeInterval f t, d => domainExcludeIntervalNoint d f t
  | region f t, d => domainRegionNoint d f t

def DomOp.aux : DomOp → Dvar → Except Stop Dvar
  | setFalse elm, d => domainSetFalseAux d elm
  | excludeInterval f t, d => domainExcludeIntervalAux d f t
  | region f t, d => domainRegionAux d f t

noncomputable def DomOp.post : DomOp → Finset ℤ → Finset ℤ
  | setFalse elm, S => S.erase elm
  | excludeInterval f t, S => S \ Finset.Icc f t
  | region f t, S => S ∩ Finset.Icc f t

/-- The precondition the source states: `from` must be at most `to`. -/
def DomOp.Pre : DomOp → Prop
  | excludeInterval f t => f ≤ t
  | _ => True

def DomOp.Fits : DomOp → Dvar → Prop
  | setFalse _, _ => True
  | excludeInterval f t, d => d.var = .susp → d.ExcludeFits f t
  | region f t, d => d.var = .susp → d.CutFits f t

/-- The primitive did what it is for: the set changes exactly, the call fails if and only if nothing is left,
the variable is bound if and only if one value is left, and the invariant holds again. -/
def DomOp.Correct (op : DomOp) (d : Dvar) : Except Stop Dvar → Prop
  | .ok d' => d'.dom = op.post d.dom ∧ d'.dom.Nonempty ∧ ((∃ v, d'.var = .int v) ↔ ∃ v, d'.dom = {v}) ∧ d'.Inv
  | .error .fail => op.post d.dom = ∅
  | .error .oob => False

/-! ## One step -/

theorem Narrowed.correct_iff (op : DomOp) {fits : Prop} (h : d.Inv) (hv : d.var = .susp)
    (hd' : Narrowed d (op.post d.elems) fits d') : fits ↔ op.Correct d (.ok d') := by
  cases hd' with
  | updated hvar hcs hrange hshape helems henough hexact =>
    rw [hv] at hvar
    rw [hexact (h.exact hv), DomOp.Correct, Dvar.dom_susp hv, Dvar.dom_susp hvar, helems]
    constructor
    · intro hboth
      obtain ⟨hsize, hlt⟩ := hboth
      refine ⟨rfl, helems ▸ ⟨_, hshape.first_mem_elems⟩, ?_, hshape.repInv hsize, hlt.le, fun _ => hlt, ?_⟩
      · apply iff_of_false (by simp [hvar])
        intro hboth
        obtain ⟨v, hsingle⟩ := hboth
        exact hshape.not_singleton hlt v (helems.trans hsingle)
      · simp [hvar]
    · intro hboth
      obtain ⟨-, -, -, hinv⟩ := hboth
      exact hinv.exact hvar
  | assigned hS hexact =>
    refine iff_of_true (hexact (h.exact hv)) ⟨?_, ?_, ?_, ?_⟩
    · rw [Dvar.dom_susp hv, hS]
      rfl
    · exact singleton_nonempty _
    · exact iff_of_true ⟨_, rfl⟩ ⟨_, rfl⟩
    · exact h.assign _

/-- With nothing left of the region the call fails, except when a count does not fit: then it goes on. -/
theorem domainRegionNoint_empty {f t : ℤ} (h : d.Shape) (hex : d.Exact) (hS : d.elems ∩ Finset.Icc f t = ∅) :
    (d.CutFits f t ∧ domainRegionNoint d f t = .error .fail) ∨
      (¬ d.CutFits f t ∧ ∃ d', domainRegionNoint d f t = .ok d') := by
  have hnot : ∀ x ∈ d.elems, ¬ (f ≤ x ∧ x ≤ t) := fun x hx hft => by
    have hmem : x ∈ d.elems ∩ Finset.Icc f t := mem_inter.2 ⟨hx, mem_Icc.2 hft⟩
    rw [hS] at hmem
    simp at hmem
  have hfirst := hnot _ h.first_mem_elems
  have hlast := hnot _ h.last_mem_elems
  have hle := h.le
  unfold domainRegionNoint callDomainRegion
  by_cases hft : f > t
  · rw [if_pos hft]
    exact .inl ⟨fun _ hlt => by omega, rfl⟩
  rw [if_neg hft]
  by_cases hf : f > d.first
  · rw [if_pos hf]
    by_cases ht : t < d.last
    · rw [if_pos ht]
      have hhas : ∀ x, f ≤ x → x ≤ t → d.type.has x = false := fun x hx hxt => by
        rw [Bool.eq_false_iff]
        exact fun hm => hnot x (Dvar.mem_elems.2 ⟨by omega, hm⟩) ⟨hx, hxt⟩
      have hd : d.type ≠ .it := fun hd => by simpa [hd] using hhas f (le_refl f) (by omega)
      unfold callDomainRegionMinMax
      by_cases heq : f = t
      · have hdm : dmTrue d f = .ok false := by
          rw [dmTrue_eq h, decide_eq_false fun hm => hnot f hm ⟨le_refl f, by omega⟩]
        refine .inl ⟨fun _ hlt => by omega, ?_⟩
        rw [if_pos heq, if_neg hd]
        simp only [hdm, bind, Except.bind]
        rfl
      · rw [if_neg heq, if_neg hd]
        have hcard := h.card_region hf (by omega) ht
        have hzero : (members d.type.has f t).card = 0 := by
          rw [card_eq_zero, eq_empty_iff_forall_notMem]
          intro x hx
          have := mem_members.1 hx
          rw [hhas x this.1.1 this.1.2] at this
          simp at this
        obtain ⟨c, hcut, hcle, hfit⟩ :=
          cutOff_spec h hd (show d.first ≤ d.first + 1 by omega) (show f - 1 < d.last by omega)
        obtain ⟨c', hcut', hcle', hfit'⟩ :=
          cutOff_spec h hd (show d.first ≤ t + 1 by omega) (show d.last - 1 < d.last by omega)
        have hfits : d.CutFits f t ↔ c = (members d.type.has (d.first + 1) (f - 1)).card ∧
            c' = (members d.type.has (t + 1) (d.last - 1)).card := by
          rw [← hfit, ← hfit', ← d.elems_inter_Ioo (by omega) (by omega), ← d.elems_inter_Ioo (by omega) (by omega)]
          exact ⟨fun hx => ⟨(hx hd (by omega)).1 hf (by omega), (hx hd (by omega)).2 (by omega) ht⟩,
            fun hx _ _ => ⟨fun _ _ => hx.1, fun _ _ => hx.2⟩⟩
        have hsize := hex.1
        simp only [hcut, hcut', bind, Except.bind, pure, Except.pure]
        by_cases hsz : d.size - (c + c') - 2 = 0
        · rw [if_pos hsz]
          exact .inl ⟨hfits.2 (by omega), rfl⟩
        · rw [if_neg hsz]
          obtain ⟨b, hb⟩ := Dvar.exists_bv hd
          obtain ⟨e, he, -⟩ := exists_nextIn h.last_mem (show f ≤ d.last by omega)
          obtain ⟨l, hl, -⟩ := exists_prevIn h.first_mem (show d.first ≤ t by omega)
          simp only [domainNextBv_eq h hb hf.le (hb ▸ he), domainPrevBv_eq h hb ht.le (hb ▸ hl)]
          refine .inr ⟨fun hx => hsz (by have := hfits.1 hx; omega), ?_⟩
          split_ifs
          · exact ⟨_, rfl⟩
          · exact ⟨_, rfl⟩
    · rw [if_neg ht, callDomainRegionMin, if_pos (by omega), if_pos (by omega)]
      exact .inl ⟨fun _ _ => ⟨fun _ _ => by omega, fun _ _ => by omega⟩, rfl⟩
  · have ht : t < d.last := by omega
    rw [if_neg hf, if_pos ht, callDomainRegionMax, if_pos (by omega), if_pos (by omega)]
    exact .inl ⟨fun _ _ => ⟨fun _ _ => by omega, fun _ _ => by omega⟩, rfl⟩

theorem DomOp.not_correct_of_empty {op : DomOp} (hempty : op.post d.dom = ∅) : ¬ op.Correct d (.ok d') := by
  intro h
  obtain ⟨hdom, hne, -, -⟩ := h
  rw [hdom, hempty] at hne
  exact not_nonempty_empty hne

/-- From a free variable with the invariant, the routine without the bound test is correct if and only if the counts
fit. -/
theorem DomOp.noint_correct_iff {op : DomOp} (h : d.Inv) (hv : d.var = .susp) (hpre : op.Pre) :
    op.Fits d ↔ op.Correct d (op.noint d) := by
  have hshape := h.shape
  have hex := h.exact hv
  have hempty : ∀ {fits : Prop} {r : Except Stop Dvar}, op.post d.elems = ∅ →
      (fits ∧ r = .error .fail) ∨ (¬ fits ∧ ∃ d', r = .ok d') → (fits ↔ op.Correct d r) := by
    rintro fits r hS (⟨hfits, rfl⟩ | ⟨hfits, d', rfl⟩)
    · exact iff_of_true hfits (by rw [DomOp.Correct, Dvar.dom_susp hv, hS])
    · exact iff_of_false hfits (DomOp.not_correct_of_empty (by rw [Dvar.dom_susp hv, hS]))
  cases op with
  | setFalse e =>
    have hne : (d.elems.erase e).Nonempty := by
      have hlt := hex.2
      by_cases he : e = d.first
      · exact ⟨d.last, Finset.mem_erase.2 ⟨by omega, hshape.last_mem_elems⟩⟩
      · exact ⟨d.first, Finset.mem_erase.2 ⟨Ne.symm he, hshape.first_mem_elems⟩⟩
    obtain ⟨d', hr, hd'⟩ := domainSetFalseNoint_narrowed hshape hex.enough hne
    simp only [DomOp.noint, hr]
    exact Narrowed.correct_iff (.setFalse e) h hv hd'
  | excludeInterval f t =>
    simp only [DomOp.Fits, hv, true_imp_iff]
    rcases (d.elems \ Finset.Icc f t).eq_empty_or_nonempty with hS | hne
    · have hmem : ∀ x ∈ d.elems, f ≤ x ∧ x ≤ t := fun x hx =>
        mem_Icc.1 (sdiff_eq_empty_iff_subset.1 hS hx)
      have hf := hmem _ hshape.first_mem_elems
      apply hempty hS
      simp only [DomOp.noint, domainExcludeIntervalNoint, Dvar.ExcludeFits, if_pos hf.1]
      apply domainRegionNoint_empty hshape hex
      rw [eq_empty_iff_forall_notMem]
      intro x hx
      obtain ⟨hx, hxt⟩ := mem_inter.1 hx
      have := hmem x hx
      have := mem_Icc.1 hxt
      omega
    · obtain ⟨d', hr, hd'⟩ := domainExcludeIntervalNoint_narrowed hshape hex.enough hpre hne
      simp only [DomOp.noint, hr]
      exact Narrowed.correct_iff (.excludeInterval f t) h hv hd'
  | region f t =>
    simp only [DomOp.Fits, hv, true_imp_iff]
    rcases (d.elems ∩ Finset.Icc f t).eq_empty_or_nonempty with hS | hne
    · exact hempty hS (domainRegionNoint_empty hshape hex hS)
    · obtain ⟨d', hr, hd'⟩ := domainRegionNoint_narrowed hshape hex.enough hne
      simp only [DomOp.noint, hr]
      exact Narrowed.correct_iff (.region f t) h hv hd'

theorem DomOp.aux_of_susp (op : DomOp) (hv : d.var = .susp) : op.aux d = op.noint d := by
  cases op with
  | setFalse e => simp only [DomOp.aux, DomOp.noint, domainSetFalseAux, hv]
  | excludeInterval f t => simp only [DomOp.aux, DomOp.noint, domainExcludeIntervalAux, hv]
  | region f t => simp only [DomOp.aux, DomOp.noint, domainRegionAux, hv]

theorem DomOp.aux_correct_of_int {v : ℤ} (op : DomOp) (h : d.Inv) (hv : d.var = .int v) : op.Correct d (op.aux d) := by
  have hok : op.post {v} = {v} → op.Correct d (.ok d) := fun hpost => by
    refine ⟨?_, ?_, ?_, h⟩
    · rw [Dvar.dom_int hv, hpost]
    · rw [Dvar.dom_int hv]
      exact singleton_nonempty v
    · rw [Dvar.dom_int hv]
      exact iff_of_true ⟨v, hv⟩ ⟨v, rfl⟩
  have hfail : op.post {v} = ∅ → op.Correct d (.error .fail) := fun hpost => by
    rw [DomOp.Correct, Dvar.dom_int hv, hpost]
  cases op with
  | setFalse e =>
    simp only [DomOp.aux, domainSetFalseAux, hv]
    split_ifs with heq
    · exact hfail (by simp [DomOp.post, heq])
    · exact hok (erase_eq_of_notMem (by simpa using Ne.symm heq))
  | excludeInterval f t =>
    simp only [DomOp.aux, domainExcludeIntervalAux, hv]
    split_ifs with hin
    · exact hfail (sdiff_eq_empty_iff_subset.2 (by simpa using hin))
    · exact hok (sdiff_eq_self_of_disjoint (by simpa using hin))
  | region f t =>
    simp only [DomOp.aux, domainRegionAux, hv]
    split_ifs with hout
    · exact hfail (singleton_inter_of_notMem (by rw [mem_Icc]; omega))
    · exact hok (singleton_inter_of_mem (by rw [mem_Icc]; omega))

/-- The routine that is called: a variable that is not bound may be given to either. -/
def DomOp.exec (op : DomOp) (noint : Bool) (d : Dvar) : Except Stop Dvar := if noint then op.noint d else op.aux d

theorem DomOp.correct_iff (op : DomOp) (noint : Bool) (h : d.Inv) (hpre : op.Pre)
    (hnoint : noint = true → d.var = .susp) : op.Fits d ↔ op.Correct d (op.exec noint d) := by
  cases hv : d.var with
  | susp =>
    have hexec : op.exec noint d = op.noint d := by
      unfold DomOp.exec
      split_ifs
      · rfl
      · exact op.aux_of_susp hv
    rw [hexec]
    exact DomOp.noint_correct_iff h hv hpre
  | int v =>
    have hnot : ¬ noint = true := fun hn => by simp [hv] at hnoint; simp [hnoint] at hn
    rw [DomOp.exec, if_neg hnot]
    refine iff_of_true ?_ (op.aux_correct_of_int h hv)
    cases op <;> simp [DomOp.Fits, hv]
  | ref p => exact absurd hv (h.not_ref p)

theorem Dvar.Inv.dom_nonempty (h : d.Inv) : d.dom.Nonempty := by
  cases hv : d.var with
  | int v => exact ⟨v, by rw [Dvar.dom_int hv, mem_singleton]⟩
  | susp => exact ⟨d.first, by rw [Dvar.dom_susp hv]; exact h.shape.first_mem_elems⟩
  | ref p => exact absurd hv (h.not_ref p)

/-- Excluding an element from a variable with the invariant: it fails on the only value. -/
theorem Dvar.Inv.setFalseAux (h : d.Inv) (e : ℤ) : (domainSetFalseAux d e = .error .fail ∧ d.var = .int e) ∨
      ∃ d', domainSetFalseAux d e = .ok d' ∧ d'.Inv ∧ d'.dom = d.dom.erase e ∧
        (d' = d ∨ Narrowed d (d.elems.erase e) True d') := by
  cases hv : d.var with
  | int v =>
    simp only [domainSetFalseAux, hv]
    split_ifs with hve
    · exact .inl ⟨rfl, by rw [hve]⟩
    · refine .inr ⟨d, rfl, h, ?_, .inl rfl⟩
      rw [Dvar.dom_int hv, erase_eq_of_notMem]
      simpa using Ne.symm hve
  | susp =>
    have hlt := h.susp hv
    have hne : (d.elems.erase e).Nonempty := by
      by_cases he : e = d.first
      · exact ⟨d.last, Finset.mem_erase.2 ⟨by omega, h.shape.last_mem_elems⟩⟩
      · exact ⟨d.first, Finset.mem_erase.2 ⟨Ne.symm he, h.shape.first_mem_elems⟩⟩
    obtain ⟨d', hd', hn⟩ := domainSetFalseNoint_narrowed h.shape (h.exact hv).enough hne
    obtain ⟨hdom, -, -, hinv⟩ := (Narrowed.correct_iff (.setFalse e) h hv hn).1 trivial
    simp only [domainSetFalseAux, hv]
    exact .inr ⟨d', hd', hinv, hdom, .inr hn⟩
  | ref p => exact absurd hv (h.not_ref p)

/-! ## Runs -/

/-- How an interval variable comes into being on a free variable: with the test for equal bounds
(`b_DM_CREATE_DVAR`) or without it (`c_DM_CREATE_DVARS`). -/
inductive Creation where
  | dvar (from' to' : ℤ)
  | dvars (from' to' : ℤ)

def Creation.dvarOf : Creation → Dvar
  | dvar f t => bDmCreateDvar f t
  | dvars f t => auxCreateDomainVar f t

/-- The bounds are those of a domain; without the test they differ. -/
def Creation.Ok : Creation → Prop
  | dvar f t => f ≤ t
  | dvars f t => f < t

noncomputable def Creation.interval : Creation → Finset ℤ
  | dvar f t => Finset.Icc f t
  | dvars f t => Finset.Icc f t

/-- The states that a run of the primitives reaches when the counts of every step fit, with the set that the steps
have left of the interval. -/
inductive Reaches : Dvar → Finset ℤ → Prop
  | create {c : Creation} (hc : c.Ok) : Reaches c.dvarOf c.interval
  | step {d d' : Dvar} {S : Finset ℤ} (op : DomOp) (noint : Bool) (h : Reaches d S) (hpre : op.Pre)
      (hnoint : noint = true → d.var = .susp) (hfits : op.Fits d) (hexec : op.exec noint d = .ok d') :
      Reaches d' (op.post S)

theorem auxCreateDomainVar_rep (f t : ℤ) : (auxCreateDomainVar f t).RepInv :=
  ⟨fun _ => rfl, fun b hb => by simp [auxCreateDomainVar] at hb⟩

theorem auxCreateDomainVar_elems (f t : ℤ) : (auxCreateDomainVar f t).elems = Finset.Icc f t :=
  members_true fun x _ _ => DvType.has_it x

theorem auxCreateDomainVar_inv {f t : ℤ} (hft : f < t) : (auxCreateDomainVar f t).Inv :=
  ⟨auxCreateDomainVar_rep f t, hft.le, fun _ => hft, fun p hp => by simp [auxCreateDomainVar] at hp⟩

theorem Creation.inv {c : Creation} (hc : c.Ok) : c.dvarOf.Inv ∧ c.dvarOf.dom = c.interval := by
  cases c with
  | dvar f t =>
    have hft : f ≤ t := hc
    simp only [Creation.dvarOf, bDmCreateDvar, Creation.interval]
    split_ifs with heq
    · refine ⟨⟨⟨(auxCreateDomainVar_rep f t).it, (auxCreateDomainVar_rep f t).bv⟩, hft,
        fun hs => by simp [assignDvar] at hs, fun p hp => by simp [assignDvar] at hp⟩, ?_⟩
      rw [heq, Finset.Icc_self]
      rfl
    · exact ⟨auxCreateDomainVar_inv (lt_of_le_of_ne hft heq), auxCreateDomainVar_elems f t⟩
  | dvars f t => exact ⟨auxCreateDomainVar_inv hc, auxCreateDomainVar_elems f t⟩

theorem Reaches.inv {S : Finset ℤ} (h : Reaches d S) : d.Inv ∧ d.dom = S := by
  induction h with
  | create hc => exact Creation.inv hc
  | step op noint h hpre hnoint hfits hexec ih =>
    obtain ⟨hinv, hdom⟩ := ih
    have hcorrect := (op.correct_iff noint hinv hpre hnoint).1 hfits
    rw [hexec, DomOp.Correct, hdom] at hcorrect
    exact ⟨hcorrect.2.2.2, hcorrect.1⟩

theorem domainRegionNoint_overflow {f t x y : ℤ} (h : d.Inv) (hv : d.var = .susp) (hcut : ¬ d.CutFits f t)
    (hx : x ∈ d.elems ∩ Finset.Icc f t) (hy : y ∈ d.elems ∩ Finset.Icc f t) (hxy : x < y) :
    ∃ d', domainRegionNoint d f t = .ok d' ∧ d'.var = .susp ∧ d'.size ≠ d'.elems.card := by
  have hex := h.exact hv
  obtain ⟨d', hr, hd'⟩ := domainRegionNoint_narrowed h.shape hex.enough ⟨x, hx⟩
  cases hd' with
  | updated hvar hcs hrange hshape helems henough hexact =>
    refine ⟨d', hr, hvar.trans hv, fun hsize => hcut ((hexact hex).2 ⟨hsize, ?_⟩)⟩
    rw [← helems, Dvar.mem_elems] at hx hy
    omega
  | assigned hS hexact => exact absurd (hexact hex) hcut

/-- `0..2^32` without an inner element, with a bit vector. -/
theorem exists_dvar_erase {e : ℤ} (he : 0 < e) (he' : e < 2 ^ 32) :
    ∃ d, (DomOp.setFalse e).exec false (Creation.dvar 0 (2 ^ 32)).dvarOf = .ok d ∧ d.Inv ∧ d.var = .susp ∧
      d.type ≠ .it ∧ d.first = 0 ∧ d.last = 2 ^ 32 ∧ d.elems = (Finset.Icc 0 (2 ^ 32)).erase e := by
  have hdvar : (Creation.dvar 0 (2 ^ 32)).dvarOf = auxCreateDomainVar 0 (2 ^ 32) := by
    rw [Creation.dvarOf, bDmCreateDvar, if_neg (by norm_num)]
  have hinv := auxCreateDomainVar_inv (show (0 : ℤ) < 2 ^ 32 by norm_num)
  have hdom : (auxCreateDomainVar 0 (2 ^ 32)).dom = Finset.Icc 0 (2 ^ 32) := auxCreateDomainVar_elems _ _
  have hvar : (auxCreateDomainVar 0 (2 ^ 32)).var = .susp := rfl
  have hfirst : (auxCreateDomainVar 0 (2 ^ 32)).first = 0 := rfl
  have hlast : (auxCreateDomainVar 0 (2 ^ 32)).last = 2 ^ 32 := rfl
  rw [hdvar]
  generalize auxCreateDomainVar 0 (2 ^ 32) = d₀ at hinv hdom hvar hfirst hlast ⊢
  obtain ⟨b, s, hr, -⟩ := inner_elm_removes hinv.shape (show d₀.first < e by omega) (show e < d₀.last by omega)
  have hexec : (DomOp.setFalse e).exec false d₀ = .ok { d₀ with type := .bv b, size := s } := by
    rw [← hr, DomOp.exec, if_neg (by simp), DomOp.aux_of_susp _ hvar, DomOp.noint, domainSetFalseNoint,
      if_pos (show e > d₀.first ∧ e < d₀.last by omega)]
  obtain ⟨hdom₁, -, -, hinv₁⟩ : (DomOp.setFalse e).Correct d₀ (.ok { d₀ with type := .bv b, size := s }) := by
    rw [← hexec]
    exact ((DomOp.setFalse e).correct_iff false hinv trivial (by simp)).1 trivial
  have hvar₁ : Dvar.var { d₀ with type := .bv b, size := s } = .susp := hvar
  rw [Dvar.dom_susp hvar₁, DomOp.post, hdom] at hdom₁
  exact ⟨_, hexec, hinv₁, hvar₁, by simp, hfirst, hlast, hdom₁⟩

end

end Picat
