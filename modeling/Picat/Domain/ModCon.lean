import Picat.Domain.Multiply

/-!
# The propagator of the modulus

`b_MOD_CON_ccc` for `X mod Y = Z` with an integer `Y`: the values of `X` whose remainder is no value of `Z` go. The loop
steps to the next element after the last one as well, and where the domain is a bit vector by then, the scan looks for
a set bit beyond it.

* `bModConCcc_iff` : no scan leaves the vector, and only values without a support go, exactly if `ModStaysInside`.
-/

namespace Picat

open BitScan Function Finset

/-- `while (currX <= maxX)`, with the test of `currX`. -/
def modLoop (supported : Store → ℤ → Except Stop Bool) (x : ℕ) (maxX : ℤ) : ℕ → Store → ℤ → Except Stop Store
  | 0, s, currX => if currX ≤ maxX then .error .oob else .ok s
  | fuel + 1, s, currX =>
    if currX ≤ maxX then do
      let (s, _) ← excludeUnsupported domainSetFalseAux supported x s currX
      let currX ← nextElm (s x) currX
      modLoop supported x maxX fuel s currX
    else .ok s

/-- The remainder is a value of `Z`: `currX%Y == Z`, or `dm_true(dv_ptr_z, currX % Y)`. -/
def modSupported (Y : ℤ) (Z : FdTerm) (s : Store) (currX : ℤ) : Except Stop Bool :=
  match Z with
  | .int v => return currX.tmod Y = v
  | .dvar z => dmTrue (s z) (currX.tmod Y)

def bModConCcc (s : Store) (X : FdTerm) (Y : ℤ) (Z : FdTerm) : Except Stop Store :=
  match deref s X with
  | .int _ => .ok s
  | .dvar x =>
    if (s x).last ≥ 3000 then .ok s
    else modLoop (modSupported Y (deref s Z)) x (s x).last (((s x).last - (s x).first).toNat + 1) s (s x).first

/-! ## The bits beyond the last element -/

/-- After the last element there is a set bit in the vector, or there will be one in the vector of an interval, which
ends with the word of that element. -/
def Dvar.BitBeyond (d : Dvar) : Prop :=
  match d.type with
  | .it => (d.last + 1) % 64 ≠ 0
  | .bv b => ∃ y, d.last < y ∧ b.has y = true

section
variable {d d' : Dvar} {b : BitVector} {e x : ℤ}

theorem excludeInnerElmBv_has (hb : d.type = .bv b) (hrun : excludeInnerElmBv d e = .ok d') :
    ∃ b', d'.type = .bv b' ∧ ∀ y, e < y → b'.has y = b.has y := by
  simp only [excludeInnerElmBv, Dvar.bvPtr, hb, bind, Except.bind] at hrun
  by_cases hin : b.low ≤ e ∧ e < b.low + 64 * b.words.length
  · obtain ⟨w, wPtr, offset, hword, hget, ho, -, hx⟩ := wordOffset_eq hin.1 hin.2
    obtain ⟨hlt, -⟩ := List.getElem?_eq_some_iff.1 hget
    simp only [hword] at hrun
    split_ifs at hrun with hw
    · rw [← Except.ok.inj hrun]
      exact ⟨b, hb, fun _ _ => rfl⟩
    · simp only [storeWord_eq hlt, pure, Except.pure, updateSize] at hrun
      rw [← Except.ok.inj hrun]
      have hclear := Holds.clear b.holds hget ho
      rw [← hx] at hclear
      refine ⟨_, rfl, fun y hy => ?_⟩
      have hcell := BitVector.has_eq_of_holds (b := { b with words := _ }) hclear (show b.low ≤ y by omega)
      rw [decide_eq_false (show ¬ y = e by omega), Bool.not_false, Bool.and_true] at hcell
      exact hcell
  · rw [wordOffset_of_not_mem (by omega)] at hrun
    cases hrun

theorem itToBvWithHole_has (hfe : d.first < e) (hel : e < d.last) (hrun : itToBvWithHole d e = .ok d') :
    ∃ b', d'.type = .bv b' ∧ ∀ y, e < y → b'.has y = decide (y ≤ (itToBvWords d).up) := by
  obtain ⟨hlow, hup⟩ := itToBvWords_bounds d
  have hlen : (itToBvWords d).up + 1 = (itToBvWords d).low + 64 * (itToBvWords d).words.length :=
    itToBvWords_filled d (by omega)
  have hlt : (e - wordNumber d.first * 64).toNat / 64 < (itToBvWords d).words.length := by
    rw [show wordNumber d.first * 64 = (itToBvWords d).low from rfl]
    omega
  have hget : (itToBvWords d).words[(e - wordNumber d.first * 64).toNat / 64]? = some maskFf := by
    simp only [itToBvWords, List.length_replicate] at hlt ⊢
    rw [List.getElem?_replicate, if_pos hlt]
  have hclear := Holds.clear (itToBvWords_holds d) hget
    (Nat.mod_lt (e - wordNumber d.first * 64).toNat (show 0 < 64 by omega))
  have heq : e = (itToBvWords d).low + 64 * ((e - wordNumber d.first * 64).toNat / 64 : ℕ) +
      ((e - wordNumber d.first * 64).toNat % 64 : ℕ) := by
    rw [show wordNumber d.first * 64 = (itToBvWords d).low from rfl]
    omega
  rw [maskFf, BitVec.allOnes_and, ← heq] at hclear
  simp only [itToBvWithHole, storeWord_eq hlt, bind, Except.bind, pure, Except.pure, updateSize] at hrun
  rw [← Except.ok.inj hrun]
  refine ⟨_, rfl, fun y hy => ?_⟩
  have hcell := BitVector.has_eq_of_holds (b := { itToBvWords d with words := _ }) hclear
    (show (itToBvWords d).low ≤ y by omega)
  rw [decide_eq_false (show ¬ y = e by omega), Bool.not_false, Bool.and_true] at hcell
  exact hcell

theorem domainSetFalseNoint_type (hnot : ¬ (d.first < e ∧ e < d.last)) (hrun : domainSetFalseNoint d e = .ok d') :
    d'.type = d.type := by
  rw [domainSetFalseNoint, if_neg hnot] at hrun
  split_ifs at hrun
  · rw [← Except.ok.inj hrun]
    rfl
  · cases hnext : nextElm d e with
    | error stop => simp [hnext, bind, Except.bind] at hrun
    | ok a =>
      simp only [hnext, bind, Except.bind, pure, Except.pure] at hrun
      rw [← Except.ok.inj hrun]
      rfl
  · rw [← Except.ok.inj hrun]
    rfl
  · cases hprev : prevElm d e with
    | error stop => simp [hprev, bind, Except.bind] at hrun
    | ok a =>
      simp only [hprev, bind, Except.bind, pure, Except.pure] at hrun
      rw [← Except.ok.inj hrun]
      rfl
  · rw [← Except.ok.inj hrun]

theorem domainSetFalseAux_bv (hb : d.type = .bv b) (he : e ≤ x) (hrun : domainSetFalseAux d e = .ok d') :
    ∃ b', d'.type = .bv b' ∧ ∀ y, x < y → b'.has y = b.has y := by
  have hsame : d'.type = d.type → ∃ b', d'.type = .bv b' ∧ ∀ y, x < y → b'.has y = b.has y := fun h =>
    ⟨b, h.trans hb, fun _ _ => rfl⟩
  have hnoint : domainSetFalseNoint d e = .ok d' → ∃ b', d'.type = .bv b' ∧ ∀ y, x < y → b'.has y = b.has y := by
    intro hrun
    by_cases hinner : d.first < e ∧ e < d.last
    · rw [domainSetFalseNoint, if_pos hinner, if_neg (by rw [hb]; simp)] at hrun
      obtain ⟨b', hb', hhas⟩ := excludeInnerElmBv_has hb hrun
      exact ⟨b', hb', fun y hy => hhas y (by omega)⟩
    · exact hsame (domainSetFalseNoint_type hinner hrun)
  cases hv : d.var with
  | int v =>
    simp only [domainSetFalseAux, hv] at hrun
    split_ifs at hrun
    rw [← Except.ok.inj hrun] at hsame ⊢
    exact hsame rfl
  | susp => exact hnoint (by simpa only [domainSetFalseAux, hv] using hrun)
  | ref q => exact hnoint (by simpa only [domainSetFalseAux, hv] using hrun)

theorem domainSetFalseAux_it (hd : d.type = .it) (hv : d.var = .susp) (hrun : domainSetFalseAux d e = .ok d') :
    if d.first < e ∧ e < d.last then ∃ b', d'.type = .bv b' ∧
      ∀ y, d.last < y → b'.has y = decide (y ≤ (itToBvWords d).up) else d'.type = .it := by
  simp only [domainSetFalseAux, hv] at hrun
  split_ifs with hinner
  · rw [domainSetFalseNoint, if_pos hinner, if_pos hd] at hrun
    obtain ⟨b', hb', hhas⟩ := itToBvWithHole_has hinner.1 hinner.2 hrun
    exact ⟨b', hb', fun y hy => hhas y (by omega)⟩
  · rw [domainSetFalseNoint_type hinner hrun, hd]

theorem bitBeyond_itToBv (hd : d.type = .it) :
    d.BitBeyond ↔ ∃ y, d.last < y ∧ decide (y ≤ (itToBvWords d).up) = true := by
  simp only [Dvar.BitBeyond, hd, itToBvWords, wordNumber_eq, decide_eq_true_eq]
  constructor
  · intro h
    exact ⟨d.last + 1, by omega, by omega⟩
  · intro hp
    obtain ⟨y, hy, hup⟩ := hp
    omega

theorem nextElm_bv (hb : d.type = .bv b) (hlow : b.low ≤ x + 1) :
    (∃ f, x < f ∧ nextElm d x = .ok f ∧ ∃ y, x < y ∧ b.has y = true) ∨
      nextElm d x = .error .oob ∧ ¬ ∃ y, x < y ∧ b.has y = true := by
  rw [nextElm, if_neg (by rw [hb]; simp)]
  simp only [domainNextBv, Dvar.bvPtr, hb, bind, Except.bind]
  by_cases hset : ∃ y, x < y ∧ b.has y = true
  · apply Or.inl
    obtain ⟨y, hy, hhas⟩ := id hset
    obtain ⟨f, hf, -⟩ := exists_nextIn hhas (show x + 1 ≤ y by omega)
    have hge := hf.le
    exact ⟨f, by omega, bvNextIn_eq hlow hf, hset⟩
  · refine .inr ⟨bvNextIn_oob fun y hy => ?_, hset⟩
    rw [Bool.eq_false_iff]
    exact fun hhas => hset ⟨y, by omega, hhas⟩

end

/-! ## The loop -/

section
variable {supp : ℤ → Prop} {d₀ d d' : Dvar} {e : ℤ}

/-- An unsupported value lies between a supported one and the last one: excluding it takes a vector. -/
def Dvar.HasGap (d : Dvar) (supp : ℤ → Prop) : Prop :=
  ∃ a ∈ d.elems, ∃ b ∈ d.elems, a < b ∧ b < d.last ∧ supp a ∧ ¬ supp b

/-- The loop over `d` does not end in a scan without a bit to find. -/
def Dvar.ScanStays (d : Dvar) (supp : ℤ → Prop) : Prop := (d.type = .it ∧ ¬ d.HasGap supp) ∨ d.BitBeyond

/-- What has become of the type of `d₀` by the time the loop tests `e`. -/
def TypeAt (supp : ℤ → Prop) (d₀ d : Dvar) (e : ℤ) : Prop :=
  (d₀.type = .it ∧ d.type = .it ∧ ∀ a ∈ d₀.elems, ∀ b ∈ d₀.elems, a < b → b < e → b < d₀.last → supp a → supp b) ∨
    ∃ b, d.type = .bv b ∧ ((∃ y, d₀.last < y ∧ b.has y = true) ↔ d₀.BitBeyond) ∧ (d₀.type = .it → d₀.HasGap supp)

theorem TypeAt.start (d : Dvar) : TypeAt supp d d d.first := by
  cases hd : d.type with
  | it =>
    refine .inl ⟨hd, hd, fun a ha b hb hab hbf => ?_⟩
    have hfirst := (Dvar.mem_elems.1 hb).1.1
    omega
  | bv b =>
    refine .inr ⟨b, hd, ?_, fun h => ?_⟩
    · simp only [Dvar.BitBeyond, hd]
    · rw [hd] at h
      cases h

theorem TypeAt.keep (ht : TypeAt supp d₀ d e) (he : e ∈ d₀.elems → supp e) : TypeAt supp d₀ d (e + 1) := by
  rcases ht with ⟨h₀, hd, hgap⟩ | hbv
  · refine .inl ⟨h₀, hd, fun a ha b hb hab hbe hbl hs => ?_⟩
    rcases lt_or_ge b e with hlt | hge
    · exact hgap a ha b hb hab hlt hbl hs
    · obtain rfl : b = e := by omega
      exact he hb
  · exact .inr hbv

theorem TypeAt.skip {f : ℤ} (ht : TypeAt supp d₀ d (e + 1)) (hp : Passed d₀.elems supp d (e + 1))
    (hnext : NextIn d.type.has (e + 1) f) : TypeAt supp d₀ d f := by
  rcases ht with ⟨h₀, hd, hgap⟩ | hbv
  · refine .inl ⟨h₀, hd, fun a ha b hb hab hbf hbl hs => ?_⟩
    rcases lt_or_ge b (e + 1) with hlt | hge
    · exact hgap a ha b hb hab hlt hbl hs
    · have hdom := (hp.mem_dom b).2 ⟨hb, fun hlt => by omega⟩
      have hle := hnext.le_of_mem hge (Dvar.mem_elems.1 (hp.sub hdom)).2
      omega
  · exact .inr hbv

theorem TypeAt.remove (hp : Passed d₀.elems supp d e) (hlast : d.last = d₀.last) (hlm : d₀.last ∈ d₀.elems)
    (hel : e ≤ d₀.last) (ht : TypeAt supp d₀ d e) (he : e ∈ d₀.elems → ¬ supp e)
    (hrun : domainSetFalseAux d e = .ok d') : TypeAt supp d₀ d' (e + 1) := by
  rcases ht with ⟨h₀, hd, hgap⟩ | ⟨b, hb, hbeyond, hgap⟩
  · -- supported values below `e` are still there
    have hbelow : ∀ a ∈ d₀.elems, a < e → supp a → a ∈ d.dom := fun a ha hae hs => (hp.mem_dom a).2 ⟨ha, fun _ => hs⟩
    have hlastdom : e < d₀.last → d₀.last ∈ d.dom := fun hlt => (hp.mem_dom _).2 ⟨hlm, fun h => by omega⟩
    have hstays : d'.type = .it → ¬ (d.var = .susp ∧ d.first < e ∧ e < d.last) → TypeAt supp d₀ d' (e + 1) := by
      intro hd' hnot
      refine .inl ⟨h₀, hd', fun a ha b hb hab hbe hbl hs => ?_⟩
      rcases lt_or_ge b e with hlt | hge
      · exact hgap a ha b hb hab hlt hbl hs
      · obtain rfl : b = e := by omega
        have hadom := hbelow a ha hab hs
        cases hv : d.var with
        | susp =>
          have hfirst := (Dvar.mem_elems.1 (hp.sub hadom)).1.1
          exact absurd ⟨hv, by omega, by omega⟩ hnot
        | ref q => exact absurd hv (hp.inv.not_ref q)
        | int v =>
          have hl := hlastdom hbl
          rw [Dvar.dom_int hv, mem_singleton] at hl hadom
          omega
    cases hv : d.var with
    | ref q => exact absurd hv (hp.inv.not_ref q)
    | int v =>
      apply hstays
      · simp only [domainSetFalseAux, hv] at hrun
        split_ifs at hrun
        rw [← Except.ok.inj hrun, hd]
      · rw [hv]
        simp
    | susp =>
      have htype := domainSetFalseAux_it hd hv hrun
      by_cases hinner : d.first < e ∧ e < d.last
      · rw [if_pos hinner] at htype
        obtain ⟨b', hb', hhas⟩ := htype
        refine .inr ⟨b', hb', ?_, fun _ => ?_⟩
        · have hup : (itToBvWords d).up = (itToBvWords d₀).up := by simp only [itToBvWords, hlast]
          rw [bitBeyond_itToBv h₀, ← hup]
          constructor
          · intro hboth
            obtain ⟨y, hy, hset⟩ := hboth
            exact ⟨y, hy, by rw [← hhas y (by omega)]; exact hset⟩
          · intro hboth
            obtain ⟨y, hy, hset⟩ := hboth
            exact ⟨y, hy, by rw [hhas y (by omega)]; exact hset⟩
        · have hfirst : d.first ∈ d.dom := by
            rw [Dvar.dom_susp hv]
            exact hp.inv.shape.first_mem_elems
          have hmem : e ∈ d₀.elems := hp.elems_sub
            (Dvar.mem_elems.2 ⟨⟨by omega, by omega⟩, by rw [hd]; rfl⟩)
          obtain ⟨hfX, hfs⟩ := (hp.mem_dom _).1 hfirst
          exact ⟨d.first, hfX, e, hmem, hinner.1, by omega, hfs hinner.1, he hmem⟩
      · rw [if_neg hinner] at htype
        exact hstays htype fun h => hinner h.2
  · obtain ⟨b', hb', hhas⟩ := domainSetFalseAux_bv hb hel hrun
    refine .inr ⟨b', hb', ?_, hgap⟩
    rw [← hbeyond]
    constructor
    · intro hboth
      obtain ⟨y, hy, hset⟩ := hboth
      exact ⟨y, hy, by rw [← hhas y hy]; exact hset⟩
    · intro hboth
      obtain ⟨y, hy, hset⟩ := hboth
      exact ⟨y, hy, by rw [hhas y hy]; exact hset⟩

/-- How the loop ends: it fails when nothing is supported; else it leaves what is supported, unless its last scan leaves
the vector. -/
def ModEnds (supp : ℤ → Prop) [DecidablePred supp] (s₀ : Store) (x : ℕ) (result : Except Stop Store) : Prop :=
  ((s₀ x).elems.filter supp = ∅ ∧ result = .error .fail) ∨ ((s₀ x).elems.filter supp).Nonempty ∧
      (((s₀ x).ScanStays supp ∧ ∃ d, result = .ok (update s₀ x d) ∧ d.Inv ∧ d.dom = (s₀ x).elems.filter supp) ∨
        ¬ (s₀ x).ScanStays supp ∧ result = .error .oob)

theorem modLoop_done {supported : Store → ℤ → Except Stop Bool} {x : ℕ} {maxX f : ℤ} (fuel : ℕ) (s : Store)
    (hf : maxX < f) : modLoop supported x maxX fuel s f = .ok s := by
  cases fuel with
  | zero => rw [modLoop, if_neg (by omega)]
  | succ fuel => rw [modLoop, if_neg (by omega)]

/-- The state at the head of the loop, as long as the last element has not been tested. -/
structure AtMod (supp : ℤ → Prop) (d₀ d : Dvar) (e : ℤ) : Prop where
  passed : Passed d₀.elems supp d e
  type : TypeAt supp d₀ d e
  scanned : d.ScannedTo e
  last_eq : d.last = d₀.last
  le : e ≤ d₀.last

variable [DecidablePred supp] {s₀ : Store} {x : ℕ} {supported : Store → ℤ → Except Stop Bool}

theorem modEnds_last (fuel : ℕ) (hmax : ∀ a ∈ (s₀ x).elems, a ≤ (s₀ x).last)
    (hp : Passed (s₀ x).elems supp d ((s₀ x).last + 1)) (ht : TypeAt supp (s₀ x) d ((s₀ x).last + 1)) :
    ModEnds supp s₀ x (nextElm d (s₀ x).last >>= fun f =>
      modLoop supported x (s₀ x).last fuel (update s₀ x d) f) := by
  have hdom := hp.done fun a ha => by
    have := hmax a ha
    omega
  have hne := hp.inv.dom_nonempty
  rw [hdom] at hne
  have hok : ∀ f, (s₀ x).last < f → nextElm d (s₀ x).last = .ok f → (s₀ x).ScanStays supp →
      ModEnds supp s₀ x (nextElm d (s₀ x).last >>= fun f =>
        modLoop supported x (s₀ x).last fuel (update s₀ x d) f) := by
    intro f hf hnext hstays
    refine .inr ⟨hne, .inl ⟨hstays, d, ?_, hp.inv, hdom⟩⟩
    rw [hnext]
    exact modLoop_done fuel _ hf
  rcases ht with ⟨h₀, hd, hgap⟩ | ⟨b, hb, hbeyond, hgap⟩
  · apply hok ((s₀ x).last + 1) (by omega)
    · rw [nextElm, if_pos hd]
      rfl
    · refine .inl ⟨h₀, ?_⟩
      intro h
      obtain ⟨a, ha, c, hc, hac, hcl, hsa, hsc⟩ := h
      exact hsc (hgap a ha c hc hac (by omega) hcl hsa)
  · have hlow : b.low ≤ (s₀ x).last + 1 := by
      have hfirst := hmax _ (hp.elems_sub hp.inv.shape.first_mem_elems)
      have hbl := hp.inv.shape.low_le hb
      omega
    rcases nextElm_bv hb hlow with ⟨f, hf, hnext, hset⟩ | ⟨hnext, hnone⟩
    · exact hok f hf hnext (.inr (hbeyond.1 hset))
    · refine .inr ⟨hne, .inr ⟨?_, by rw [hnext]; rfl⟩⟩
      rintro (⟨h₀, hnogap⟩ | hbit)
      · exact hnogap (hgap h₀)
      · exact hnone (hbeyond.2 hbit)

theorem modLoop_spec (hinv : (s₀ x).Inv) (htest : Tests (s₀ x).elems supp s₀ x supported) (fuel : ℕ) (d : Dvar) (e : ℤ)
    (hlt : (s₀ x).last - e < fuel) (h : AtMod supp (s₀ x) d e) :
    ModEnds supp s₀ x (modLoop supported x (s₀ x).last fuel (update s₀ x d) e) := by
  induction fuel generalizing d e with
  | zero =>
    have := h.le
    omega
  | succ fuel ih =>
    have hle := h.le
    have hmax : ∀ a ∈ (s₀ x).elems, a ≤ (s₀ x).last := fun a ha => (Dvar.mem_elems.1 ha).1.2
    obtain ⟨b, hb, hsupp⟩ := htest d e h.passed
    have hmem : e ∈ (s₀ x).elems → e ∈ d.dom := fun he => (h.passed.mem_dom e).2 ⟨he, fun hee => by omega⟩
    -- what the round leaves of the variable
    have hgo : ∀ d', Passed (s₀ x).elems supp d' (e + 1) → TypeAt supp (s₀ x) d' (e + 1) →
        (d' = d ∨ Narrowed d (d.elems.erase e) True d') →
        ModEnds supp s₀ x (nextElm d' e >>= fun f =>
          modLoop supported x (s₀ x).last fuel (update s₀ x d') f) := by
      intro d' hp' ht' hcase
      rcases eq_or_lt_of_le hle with rfl | hel
      · exact modEnds_last fuel hmax hp' ht'
      obtain ⟨hscan, hlast'⟩ := h.passed.inv.shape.scannedTo_round h.scanned (by rwa [h.last_eq]) hcase
      rw [h.last_eq] at hlast'
      obtain ⟨f, hf, hef, hfl, hnext, hpf, hsf⟩ := hp'.step hscan (by rwa [hlast'])
      rw [hf]
      exact ih d' f (by push_cast at hlt; omega) ⟨hpf, ht'.skip hp' hnext, hsf, hlast', by rwa [← hlast']⟩
    rw [modLoop, if_pos hle]
    cases b with
    | true =>
      have hrest := hgo d (h.passed.keep fun he => (hsupp he).1 rfl)
        (h.type.keep fun he => (hsupp (hmem he)).1 rfl) (.inl rfl)
      simp only [excludeUnsupported_of_true hb, bind, Except.bind, update_self]
      exact hrest
    | false =>
      have hnot : e ∈ d.dom → ¬ supp e := fun he hs => Bool.false_ne_true ((hsupp he).2 hs)
      rcases h.passed.remove hnot with ⟨hfail, hnone⟩ | ⟨d', hd', hp', hcase⟩
      · apply Or.inl
        refine ⟨filter_eq_empty_iff.2 hnone, ?_⟩
        rw [excludeUnsupported_error hb (by rwa [update_self])]
        rfl
      · have hround := excludeUnsupported_of_false (r := x) hb (by rwa [update_self])
        rw [update_idem] at hround
        have hrest := hgo d' hp' (h.type.remove h.passed h.last_eq hinv.shape.last_mem_elems hle
          (fun he => hnot (hmem he)) hd') hcase
        simp only [hround, bind, Except.bind, update_self]
        exact hrest

end

/-! ## The propagator -/

section
variable {s : Store} {x : ℕ} {Y : ℤ} {Z : FdTerm}

/-- The remainder of `v` is a value of `Z`. -/
def HasRemainder (s : Store) (Y : ℤ) (Z : FdTerm) (v : ℤ) : Prop := v.tmod Y ∈ Z.dom s

/-- A call keeps to the domains: it does not scan past a vector, and only values without a support go, of `x` alone; it
fails only if no value has one. -/
def ModMeets (s : Store) (x : ℕ) (Y : ℤ) (Z : FdTerm) : Except Stop Store → Prop
  | .ok s' => (s' x).dom ⊆ (s x).dom ∧ (∀ v ∈ (s x).dom, v ∉ (s' x).dom → ¬ HasRemainder s Y Z v) ∧
      ∀ q, q ≠ x → s' q = s q
  | .error .fail => ∀ v ∈ (s x).dom, ¬ HasRemainder s Y Z v
  | .error .oob => False

/-- The domain goes beyond the limit of the propagator, or none of its values is supported, or the last scan of the loop
finds a bit. -/
def ModStaysInside (s : Store) (x : ℕ) (Y : ℤ) (Z : FdTerm) : Prop :=
  3000 ≤ (s x).last ∨ (∀ v ∈ (s x).dom, ¬ HasRemainder s Y Z v) ∨ (s x).ScanStays (HasRemainder s Y Z)

/-- The test decides the support, also where `Z` is the variable that shrinks: a remainder is its own remainder. -/
theorem modSupported_tests (hv : (s x).var = .susp) (hZ : ∀ z, Z = .dvar z → (s z).Inv) :
    Tests (s x).elems (HasRemainder s Y Z) s x (modSupported Y (deref s Z)) := by
  intro d e h
  rcases deref_inv hZ with ⟨v, hd, hdom⟩ | ⟨z, rfl, hd, hvz, hinv, hdom⟩
  · rw [hd]
    refine ⟨_, rfl, fun _ => ?_⟩
    rw [decide_eq_true_eq, HasRemainder, hdom, mem_singleton]
  · rw [hd]
    by_cases hzx : z = x
    · subst hzx
      refine ⟨_, by rw [modSupported, update_self, dmTrue_eq h.inv.shape], fun he => ?_⟩
      rw [decide_eq_true_eq, HasRemainder, hdom]
      constructor
      · intro hmem
        exact h.elems_sub hmem
      · intro hmem
        have hself : HasRemainder s Y (.dvar z) (e.tmod Y) := by
          rw [HasRemainder, hdom, Int.tmod_tmod]
          exact hmem
        exact h.sub ((h.mem_dom _).2 ⟨hmem, fun _ => hself⟩)
    · refine ⟨_, by rw [modSupported, update_of_ne hzx, dmTrue_eq hinv.shape], fun _ => ?_⟩
      rw [decide_eq_true_eq, HasRemainder, hdom]

/-- On a free variable the call keeps to the domains exactly if its last scan does. -/
theorem bModConCcc_iff (hx : (s x).Inv) (hv : (s x).var = .susp) (hZ : ∀ z, Z = .dvar z → (s z).Inv) :
    ModMeets s x Y Z (bModConCcc s (.dvar x) Y Z) ↔ ModStaysInside s x Y Z := by
  classical
  have hderef : deref s (.dvar x) = .dvar x := by simp only [deref, hv]
  simp only [bModConCcc, hderef, ModStaysInside]
  by_cases hlarge : (s x).last ≥ 3000
  · rw [if_pos hlarge]
    refine iff_of_true ⟨Finset.Subset.refl _, fun v hin hout => absurd hin hout, fun _ _ => rfl⟩ (.inl hlarge)
  rw [if_neg hlarge, or_iff_right (show ¬ 3000 ≤ (s x).last from hlarge)]
  have hle := hx.le
  have hrun := modLoop_spec hx (modSupported_tests (Y := Y) hv hZ) (((s x).last - (s x).first).toNat + 1) (s x)
    (s x).first (by push_cast; omega)
    ⟨.start hx hv (le_refl _), .start (s x), hx.shape.scannedTo (by omega), rfl, hle⟩
  rw [update_eq_self] at hrun
  rw [Dvar.dom_susp hv]
  rcases hrun with ⟨hnone, hfail⟩ | ⟨⟨v, hmem⟩, ⟨hstays, d, hok, -, hdom⟩ | ⟨hnot, hoob⟩⟩
  · rw [hfail]
    have hall : ∀ v ∈ (s x).elems, ¬ HasRemainder s Y Z v := filter_eq_empty_iff.1 hnone
    exact iff_of_true (by rw [ModMeets, Dvar.dom_susp hv]; exact hall) (.inl hall)
  · rw [hok]
    refine iff_of_true ⟨?_, fun v hin hout hs => ?_, fun q hq => update_of_ne hq _ _⟩ (.inr hstays)
    · rw [update_self, hdom, Dvar.dom_susp hv]
      exact filter_subset _ _
    · rw [update_self, hdom] at hout
      rw [Dvar.dom_susp hv] at hin
      exact hout (mem_filter.2 ⟨hin, hs⟩)
  · rw [hoob]
    apply iff_of_false id
    rintro (hall | hstays)
    · obtain ⟨hin, hs⟩ := mem_filter.1 hmem
      exact hall v hin hs
    · exact hnot hstays

def wordEndStore : Store := fun _ => auxCreateDomainVar 60 63

theorem bModConCcc_iff_five : ModMeets wordEndStore 0 5 (.int 0) (bModConCcc wordEndStore (.dvar 0) 5 (.int 0)) ↔
      ModStaysInside wordEndStore 0 5 (.int 0) :=
  bModConCcc_iff (auxCreateDomainVar_inv (by decide)) rfl fun z hz => by cases hz

/-- Even numbers from 60 to 63: without 61 the domain is a vector that ends at 63, and the scan from 64 on leaves it. -/
theorem bModConCcc_even :
    ¬ ∀ (s : Store) (x : ℕ) (Y : ℤ) (Z : FdTerm), (s x).Inv → (s x).var = .susp → (∀ z, Z = .dvar z → (s z).Inv) →
      0 < Y → 0 ≤ (s x).first → ModMeets s x Y Z (bModConCcc s (.dvar x) Y Z) := by
  intro h
  have hmeets := h wordEndStore 0 2 (.int 0) (auxCreateDomainVar_inv (by decide)) rfl (fun z hz => by cases hz)
    (by decide) (by decide)
  have hok : (bModConCcc wordEndStore (.dvar 0) 2 (.int 0)).isOk = false := by decide
  cases hrun : bModConCcc wordEndStore (.dvar 0) 2 (.int 0) with
  | ok s' =>
    rw [hrun] at hok
    cases hok
  | error stop =>
    rw [hrun] at hmeets
    cases stop with
    | oob => exact hmeets
    | fail =>
      have hmem : (60 : ℤ) ∈ (wordEndStore 0).dom := Dvar.mem_elems.2 ⟨by decide, rfl⟩
      exact hmeets 60 hmem (mem_singleton.2 rfl)

end

end Picat
