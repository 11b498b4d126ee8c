import Picat.Domain.Invariant
import Picat.Lib.Loops

/-!
# The variables of a constraint

A propagator works on several domain variables at once, two of which may be the same. They live in a store and a
term names one of them or is an integer. What a sound propagator keeps is stated for one valuation of the
store, a solution of the constraint: each variable it may touch still has its value.

* `Dvar.ScannedTo`, `filterLoop` : going through a domain with `next` while excluding elements from it.
-/

namespace Picat

open BitScan Function Finset

/-! ## Stores and terms -/

abbrev Store : Type := ℕ → Dvar

/-- An argument of a propagator, dereferenced up to its last step: an integer or a domain variable. -/
inductive FdTerm where
  | int (v : ℤ)
  | dvar (r : ℕ)
  deriving DecidableEq, Repr

/-- `DEREF_NONVAR`: a variable that has been assigned an integer is that integer. -/
def deref (s : Store) : FdTerm → FdTerm
  | .int v => .int v
  | .dvar r =>
    match (s r).var with
    | .int v => .int v
    | _ => .dvar r

/-- `ISINT(FOLLOW(dv_ptr))`. -/
def Dvar.isInt (d : Dvar) : Bool :=
  match d.var with
  | .int _ => true
  | _ => false

def FdTerm.val (sol : ℕ → ℤ) : FdTerm → ℤ
  | .int v => v
  | .dvar r => sol r

/-- `Function.update`, for a routine that can stop. -/
def updateM (s : Store) (r : ℕ) (f : Dvar → Except Stop Dvar) : Except Stop Store :=
  match f (s r) with
  | .ok d => .ok (update s r d)
  | .error e => .error e

noncomputable def FdTerm.dom (s : Store) : FdTerm → Finset ℤ
  | .int v => {v}
  | .dvar r => (s r).dom

theorem deref_inv {s : Store} {x : FdTerm} (hx : ∀ r, x = .dvar r → (s r).Inv) :
    (∃ v, deref s x = .int v ∧ x.dom s = {v}) ∨
      ∃ r, x = .dvar r ∧ deref s x = .dvar r ∧ (s r).var = .susp ∧ (s r).Inv ∧ x.dom s = (s r).elems := by
  cases x with
  | int v => exact .inl ⟨v, rfl, rfl⟩
  | dvar r =>
    have hinv := hx r rfl
    cases hv : (s r).var with
    | int v => exact .inl ⟨v, by simp only [deref, hv], Dvar.dom_int hv⟩
    | susp => exact .inr ⟨r, rfl, by simp only [deref, hv], hv, hinv, Dvar.dom_susp hv⟩
    | ref p => exact absurd hv (hinv.not_ref p)

/-! ## Keeping a value -/

/-- The fields of a variable are in order and hold the value `v`; if it is assigned, it is assigned `v`. -/
structure Keeps (d : Dvar) (v : ℤ) : Prop where
  shape : d.Shape
  enough : d.Enough
  mem : v ∈ d.elems
  bound : ∀ w, d.var = .int w → w = v

section
variable {d d' : Dvar} {v w e f t : ℤ} {S : Finset ℤ} {fits : Prop}

namespace Keeps

section
variable (h : Keeps d v)
include h

theorem first_le : d.first ≤ v := (Dvar.mem_elems.1 h.mem).1.1

theorem le_last : v ≤ d.last := (Dvar.mem_elems.1 h.mem).1.2

theorem mem_dom : v ∈ d.dom := by
  unfold Dvar.dom
  split
  · next w hw => rw [h.bound w hw, mem_singleton]
  · exact h.mem

theorem of_narrowed (hn : Narrowed d S fits d') (hv : v ∈ S) : Keeps d' v := by
  cases hn with
  | updated hvar hcs hrange hshape helems henough hexact =>
    exact ⟨hshape, henough, helems ▸ hv, fun w hw => h.bound w (hvar ▸ hw)⟩
  | assigned hS hexact =>
    rw [hS, mem_singleton] at hv
    subst hv
    refine ⟨⟨h.shape.le, h.shape.first_mem, h.shape.last_mem, h.shape.filled⟩, h.enough, h.mem, fun w hw => ?_⟩
    exact (DvVar.int.inj hw).symm

theorem dmTrue : dmTrue d v = .ok true := by
  rw [dmTrue_eq h.shape, decide_eq_true h.mem]

theorem setFalseNoint (hne : v ≠ e) :
    ∃ d', domainSetFalseNoint d e = .ok d' ∧ Keeps d' v ∧ Narrowed d (d.elems.erase e) True d' := by
  have hv : v ∈ d.elems.erase e := Finset.mem_erase.2 ⟨hne, h.mem⟩
  obtain ⟨d', hd', hn⟩ := domainSetFalseNoint_narrowed h.shape h.enough ⟨v, hv⟩
  exact ⟨d', hd', h.of_narrowed hn hv, hn⟩

theorem setFalseAux (hne : v ≠ e) :
    ∃ d', domainSetFalseAux d e = .ok d' ∧ Keeps d' v ∧ (d' = d ∨ Narrowed d (d.elems.erase e) True d') := by
  unfold domainSetFalseAux
  split
  · next w hw =>
      rw [if_neg (by rw [h.bound w hw]; exact hne)]
      exact ⟨d, rfl, h, .inl rfl⟩
  · obtain ⟨d', hd', hk, hn⟩ := h.setFalseNoint hne
    exact ⟨d', hd', hk, .inr hn⟩

theorem regionNoint (hf : f ≤ v) (ht : v ≤ t) : ∃ d', domainRegionNoint d f t = .ok d' ∧ Keeps d' v := by
  have hv : v ∈ d.elems ∩ Finset.Icc f t := mem_inter.2 ⟨h.mem, mem_Icc.2 ⟨hf, ht⟩⟩
  obtain ⟨d', hd', hn⟩ := domainRegionNoint_narrowed h.shape h.enough ⟨v, hv⟩
  exact ⟨d', hd', h.of_narrowed hn hv⟩

theorem excludeIntervalNoint (hft : f ≤ t) (hout : v < f ∨ t < v) :
    ∃ d', domainExcludeIntervalNoint d f t = .ok d' ∧ Keeps d' v := by
  have hv : v ∈ d.elems \ Finset.Icc f t :=
    mem_sdiff.2 ⟨h.mem, fun hin => by have hle := mem_Icc.1 hin; omega⟩
  obtain ⟨d', hd', hn⟩ := domainExcludeIntervalNoint_narrowed h.shape h.enough hft ⟨v, hv⟩
  exact ⟨d', hd', h.of_narrowed hn hv⟩

end

end Keeps

/-! ## Scanning a domain that shrinks -/

/-- The elements up to `e` have been seen, and the scan can go on from `e + 1`. -/
def Dvar.ScannedTo (d : Dvar) (e : ℤ) : Prop :=
  match d.type with
  | .it => d.first ≤ e + 1
  | .bv b => b.low ≤ e + 1

theorem Dvar.Shape.scannedTo (h : d.Shape) (he : d.first ≤ e + 1) : d.ScannedTo e := by
  unfold Dvar.ScannedTo
  split
  · exact he
  · next b hb => exact (h.low_le hb).trans he

theorem Dvar.ScannedTo.mono (h : d.ScannedTo e) (hef : e ≤ f) : d.ScannedTo f := by
  unfold Dvar.ScannedTo at *
  split at h <;> omega

theorem Dvar.ScannedTo.low_le (hs : d.ScannedTo e) : ∀ b, d.type = .bv b → b.low ≤ e + 1 := by
  intro b hb
  simpa only [Dvar.ScannedTo, hb] using hs

/-- Excluding the element at which the scan stands leaves the upper bound and the scan where they are. -/
theorem Narrowed.scannedTo (hn : Narrowed d (d.elems.erase e) fits d') (h : d.Shape) (hs : d.ScannedTo e)
    (hlt : e < d.last) : d'.ScannedTo e ∧ d'.last = d.last := by
  cases hn with
  | updated hvar hcs hrange hshape helems henough hexact =>
    have hmem : ∀ x, x ∈ d'.elems ↔ x ≠ e ∧ x ∈ d.elems := fun x => by rw [helems, Finset.mem_erase]
    have hlast : d.last ∈ d'.elems := (hmem _).2 ⟨hlt.ne', h.last_mem_elems⟩
    have hlast' := ((hmem _).1 hshape.last_mem_elems).2
    refine ⟨?_, le_antisymm (Dvar.mem_elems.1 hlast').1.2 (Dvar.mem_elems.1 hlast).1.2⟩
    cases hd : d.type with
    | it =>
      simp only [Dvar.ScannedTo, hd] at hs
      have hnext : e + 1 ∈ d'.elems :=
        (hmem _).2 ⟨by omega, Dvar.mem_elems.2 ⟨⟨hs, by omega⟩, by rw [hd]; rfl⟩⟩
      exact hshape.scannedTo (Dvar.mem_elems.1 hnext).1.1
    | bv b =>
      obtain ⟨b', hb', hlow, -⟩ := hrange b hd
      simp only [Dvar.ScannedTo, hd] at hs
      simp only [Dvar.ScannedTo, hb', hlow]
      exact hs
  | assigned hS hexact => exact ⟨hs, rfl⟩

theorem Dvar.Shape.scannedTo_round (h : d.Shape) (hs : d.ScannedTo e) (hlt : e < d.last)
    (hcase : d' = d ∨ Narrowed d (d.elems.erase e) fits d') : d'.ScannedTo e ∧ d'.last = d.last := by
  rcases hcase with rfl | hn
  · exact ⟨hs, rfl⟩
  · exact hn.scannedTo h hs hlt

end

/-! ## Steps on a store -/

/-- The variables of `live` keep their values under `sol`, the others are as in `s₀`. -/
structure Kept (live : ℕ → Prop) (sol : ℕ → ℤ) (s₀ s : Store) : Prop where
  keeps : ∀ r, live r → Keeps (s r) (sol r)
  off : ∀ r, ¬ live r → s r = s₀ r

/-- No domain loses its value under `sol` between the two stores. -/
def Preserves (sol : ℕ → ℤ) (s s' : Store) : Prop := ∀ r, sol r ∈ (s r).dom → sol r ∈ (s' r).dom

section
variable {live : ℕ → Prop} {sol : ℕ → ℤ} {s₀ s : Store} {r : ℕ} {d : Dvar} {f t : ℤ}

namespace Kept

theorem preserves (h : Kept live sol s₀ s) : Preserves sol s₀ s := by
  intro r hr
  by_cases hlive : live r
  · exact (h.keeps r hlive).mem_dom
  · rwa [h.off r hlive]

theorem update (h : Kept live sol s₀ s) (hr : live r) (hd : Keeps d (sol r)) : Kept live sol s₀ (update s r d) := by
  refine ⟨fun q hq => ?_, fun q hq => ?_⟩
  · by_cases hqr : q = r
    · subst hqr
      rwa [update_self]
    · rw [update_of_ne hqr]
      exact h.keeps q hq
  · have hqr : q ≠ r := fun hqr => hq (hqr.symm ▸ hr)
    rw [update_of_ne hqr]
    exact h.off q hq

theorem updateM {g : Dvar → Except Stop Dvar} (h : Kept live sol s₀ s) (hr : live r)
    (hg : ∃ d', g (s r) = .ok d' ∧ Keeps d' (sol r)) : ∃ s', Picat.updateM s r g = .ok s' ∧ Kept live sol s₀ s' := by
  obtain ⟨d', hd', hk⟩ := hg
  refine ⟨_, ?_, h.update hr hk⟩
  simp only [Picat.updateM, hd']

end Kept

end

/-! ## The loop over a domain -/

/-- The elements that have no support are excluded; the flag says whether `e` was. -/
def excludeUnsupported (exclude : Dvar → ℤ → Except Stop Dvar) (supported : Store → ℤ → Except Stop Bool) (r : ℕ)
    (s : Store) (e : ℤ) : Except Stop (Store × Bool) := do
  let b ← supported s e
  if b then return (s, false)
  else
    let s ← updateM s r (fun d => exclude d e)
    return (s, true)

section
variable {exclude : Dvar → ℤ → Except Stop Dvar} {supported : Store → ℤ → Except Stop Bool} {r : ℕ} {s : Store}
  {e : ℤ} {d : Dvar} {stop : Stop}

theorem excludeUnsupported_of_true (hb : supported s e = .ok true) :
    excludeUnsupported exclude supported r s e = .ok (s, false) := by
  simp only [excludeUnsupported, hb, bind, Except.bind, if_true]
  rfl

theorem excludeUnsupported_of_false (hb : supported s e = .ok false) (hd : exclude (s r) e = .ok d) :
    excludeUnsupported exclude supported r s e = .ok (update s r d, true) := by
  simp only [excludeUnsupported, hb, updateM, hd, bind, Except.bind, Bool.false_eq_true, if_false]
  rfl

theorem excludeUnsupported_error (hb : supported s e = .ok false) (hd : exclude (s r) e = .error stop) :
    excludeUnsupported exclude supported r s e = .error stop := by
  simp only [excludeUnsupported, hb, updateM, hd, bind, Except.bind, Bool.false_eq_true, if_false]

end

/-- The loops that enumerate the domain of `r` up to its first `last` and exclude what is not supported; some return as
soon as that has assigned the variable. -/
def filterLoop (exclude : Dvar → ℤ → Except Stop Dvar) (stops : Bool) (supported : Store → ℤ → Except Stop Bool)
    (r : ℕ) (last : ℤ) : ℕ → Store → ℤ → Except Stop Store
  | 0, _, _ => .error .oob
  | fuel + 1, s, e => do
      let (s, excluded) ← excludeUnsupported exclude supported r s e
      if stops && excluded && (s r).isInt then return s
      else if e = last then return s
      else do
        let e ← nextElm (s r) e
        filterLoop exclude stops supported r last fuel s e

def filterDomain (exclude : Dvar → ℤ → Except Stop Dvar) (stops : Bool) (supported : Store → ℤ → Except Stop Bool)
    (r : ℕ) (s : Store) : Except Stop Store :=
  filterLoop exclude stops supported r (s r).last (((s r).last - (s r).first).toNat + 1) s (s r).first

/-- The state at the head of the loop: besides `r` nothing has changed since it was entered in `s₁`. -/
structure AtHead (live : ℕ → Prop) (sol : ℕ → ℤ) (s₀ s₁ : Store) (r : ℕ) (last : ℤ) (s : Store) (e : ℤ) : Prop where
  kept : Kept live sol s₀ s
  frame : ∀ q, q ≠ r → s q = s₁ q
  last_eq : (s r).last = last
  le : e ≤ last
  scanned : (s r).ScannedTo e

section
variable {live : ℕ → Prop} {sol : ℕ → ℤ} {s₀ s₁ s : Store} {r : ℕ} {last e : ℤ}
  {exclude : Dvar → ℤ → Except Stop Dvar} {stops : Bool} {supported : Store → ℤ → Except Stop Bool}

/-- What the loop needs of the routine that excludes an element. -/
def Excludes (exclude : Dvar → ℤ → Except Stop Dvar) : Prop :=
  ∀ d v e, Keeps d v → v ≠ e → ∃ d', exclude d e = .ok d' ∧ Keeps d' v ∧ (d' = d ∨ Narrowed d (d.elems.erase e) True d')

theorem domainSetFalseNoint_excludes : Excludes domainSetFalseNoint := by
  intro d v e hd hne
  obtain ⟨d', hd', hk, hn⟩ := hd.setFalseNoint hne
  exact ⟨d', hd', hk, .inr hn⟩

theorem domainSetFalseAux_excludes : Excludes domainSetFalseAux := fun _ _ _ hd hne => hd.setFalseAux hne

/-- A round that goes on: with the test `b` of the element `e` the variable goes from `d` to `d'`, and the loop to `e'`. -/
structure Round (exclude : Dvar → ℤ → Except Stop Dvar) (stops : Bool) (v : ℤ) (d : Dvar) (e : ℤ) (b : Bool)
    (d' : Dvar) (e' : ℤ) : Prop where
  keeps : Keeps d' v
  narrowed : d' = d ∨ Narrowed d (d.elems.erase e) True d'
  test : b = true ∧ d' = d ∨ b = false ∧ exclude d e = .ok d' ∧ (stops = true → d'.isInt = false)
  next : nextElm d' e = .ok e'
  lt : e < e'

theorem AtHead.scanned' {d' : Dvar} (h : AtHead live sol s₀ s₁ r last s e) (hr : live r) (hlt : e < last)
    (hn : d' = s r ∨ Narrowed (s r) ((s r).elems.erase e) True d') : d'.ScannedTo e ∧ d'.last = last := by
  rw [← h.last_eq]
  exact (h.kept.keeps r hr).shape.scannedTo_round h.scanned (by rwa [h.last_eq]) hn

theorem AtHead.next {d' : Dvar} {b : Bool} {e' : ℤ} (h : AtHead live sol s₀ s₁ r last s e) (hr : live r) (hlt : e < last)
    (hround : Round exclude stops (sol r) (s r) e b d' e') :
    AtHead live sol s₀ s₁ r last (update s r d') e' := by
  obtain ⟨hscan, hlast⟩ := h.scanned' hr hlt hround.narrowed
  obtain ⟨e'', hnext, -, hle⟩ := hround.keeps.shape.nextElm hscan.low_le (by omega)
  obtain rfl : e'' = e' := Except.ok.inj (hnext.symm.trans hround.next)
  have hee := hround.lt
  refine ⟨h.kept.update hr hround.keeps, fun q hq => ?_, ?_, by omega, ?_⟩
  · rw [update_of_ne hq]
    exact h.frame q hq
  · rwa [update_self]
  · rw [update_self]
    exact hscan.mono (by omega)

section
variable {P : Store → ℤ → Prop} (hr : live r) (hex : Excludes exclude)
include hr hex

/-- The loop keeps a solution, when the test never rejects its value and the rounds keep what the test needs, `P`. -/
theorem filterLoop_kept
    (hsup : ∀ s e, AtHead live sol s₀ s₁ r last s e → P s e → ∃ b, supported s e = .ok b ∧ (e = sol r → b = true))
    (hstep : ∀ s e b d' e', AtHead live sol s₀ s₁ r last s e → P s e → e < last → supported s e = .ok b →
      Round exclude stops (sol r) (s r) e b d' e' → P (update s r d') e') :
    ∀ (fuel : ℕ) (s : Store) (e : ℤ), last - e < fuel → AtHead live sol s₀ s₁ r last s e → P s e →
      ∃ s', filterLoop exclude stops supported r last fuel s e = .ok s' ∧ Kept live sol s₀ s' := by
  intro fuel
  induction fuel with
  | zero =>
    intro s e hlt h _
    have := h.le
    omega
  | succ fuel ih =>
    intro s e hlt h hP
    obtain ⟨b, hb, hsol⟩ := hsup s e h hP
    have hle := h.le
    have hkeep := h.kept.keeps r hr
    -- what the round leaves of the variable
    obtain ⟨d', hround, hd', hn, hcase⟩ : ∃ d', excludeUnsupported exclude supported r s e =
        .ok (update s r d', !b) ∧ Keeps d' (sol r) ∧
        (d' = s r ∨ Narrowed (s r) ((s r).elems.erase e) True d') ∧
        (b = true ∧ d' = s r ∨ b = false ∧ exclude (s r) e = .ok d') := by
      cases b with
      | true =>
        refine ⟨s r, ?_, hkeep, .inl rfl, .inl ⟨rfl, rfl⟩⟩
        rw [excludeUnsupported_of_true hb, update_eq_self, Bool.not_true]
      | false =>
        obtain ⟨d', hd', hk, hn⟩ := hex _ _ e hkeep fun heq => Bool.false_ne_true (hsol heq.symm)
        exact ⟨d', excludeUnsupported_of_false hb hd', hk, hn, .inr ⟨rfl, hd'⟩⟩
    have hkept := h.kept.update hr hd'
    simp only [filterLoop, hround, bind, Except.bind]
    rw [update_self]
    by_cases hstop : (stops && !b && d'.isInt) = true
    · rw [if_pos hstop]
      exact ⟨_, rfl, hkept⟩
    rw [if_neg hstop]
    by_cases hlast : e = last
    · rw [if_pos hlast]
      exact ⟨_, rfl, hkept⟩
    rw [if_neg hlast]
    have hlt' : e < last := by omega
    obtain ⟨hscan, hlast'⟩ := h.scanned' hr hlt' hn
    obtain ⟨e', he', hin, -⟩ := hd'.shape.nextElm hscan.low_le (by omega)
    have hge := hin.le
    have hround' : Round exclude stops (sol r) (s r) e b d' e' :=
      ⟨hd', hn, hcase.imp_right fun hout => ⟨hout.1, hout.2, fun hs => by simpa [hs, hout.1] using hstop⟩, he',
        by omega⟩
    simp only [he']
    exact ih _ e' (by push_cast at hlt; omega) (h.next hr hlt' hround') (hstep s e b d' e' h hP hlt' hb hround')

theorem filterDomain_kept (h : Kept live sol s₀ s₁) (hP : P s₁ (s₁ r).first)
    (hsup : ∀ s e, AtHead live sol s₀ s₁ r (s₁ r).last s e → P s e →
      ∃ b, supported s e = .ok b ∧ (e = sol r → b = true))
    (hstep : ∀ s e b d' e', AtHead live sol s₀ s₁ r (s₁ r).last s e → P s e → e < (s₁ r).last →
      supported s e = .ok b → Round exclude stops (sol r) (s r) e b d' e' → P (update s r d') e') :
    ∃ s', filterDomain exclude stops supported r s₁ = .ok s' ∧ Kept live sol s₀ s' := by
  have hkeep := (h.keeps r hr).shape
  have hle := hkeep.le
  refine filterLoop_kept hr hex hsup hstep _ s₁ _ (by push_cast; omega) ⟨h, fun _ _ => rfl, rfl, hle, ?_⟩ hP
  exact hkeep.scannedTo (by omega)

end

end

end Picat
