import Picat.Domain.Multiply
import Picat.Lib.IntDivision

/-!
# The loops of the multiplication propagator keep every solution

The rounded divisions enclose the exact quotients, the inner loops find a support when there is one, and the loops
that exclude elements keep the values of a solution. The loop over `Z` can scan the domain of a factor that it narrows
at the same time, when `Z` is that factor.

* `excludeProducts_kept`, `excludeProducts_oob` : without a stray scan the loop over `Z` keeps the solution, with
  one it reads outside of a vector.
-/

namespace Picat

open BitScan Function

/-! ## Divisions -/

section
variable {a b x y z minX maxX minY maxY minZ maxZ : ℤ}

theorem lowDiv_eq (hb : 0 < b) : lowDiv a b = a / b := by
  unfold lowDiv
  split_ifs with ha
  · exact Int.tdiv_eq_ediv_of_nonneg ha
  · have hsign := Int.sign_eq_one_of_pos hb
    simp only [Int.tdiv_eq_ediv, show ¬ 0 ≤ a from ha, false_or, hsign]
    by_cases hdvd : b ∣ a
    · rw [if_pos hdvd, add_zero, if_neg (not_not.2 (Int.ediv_mul_cancel hdvd))]
    · rw [if_neg hdvd, if_pos fun heq => hdvd (Dvd.intro_left _ heq), add_sub_cancel_right]

theorem upDiv_eq (hb : 0 < b) : upDiv a b = -(-a / b) := by
  have hneg : upDiv a b = -lowDiv (-a) b := by
    unfold upDiv lowDiv
    simp only [Int.neg_tdiv, ge_iff_le, Left.nonneg_neg_iff, neg_mul, ne_eq, neg_inj]
    split_ifs <;> ring
  rw [hneg, lowDiv_eq hb]

theorem soundLowDiv_pos (hb : 0 < b) : soundLowDiv a b = a / b := by
  rw [soundLowDiv, if_neg (by omega), lowDiv_eq hb]

theorem soundLowDiv_neg (hb : b < 0) : soundLowDiv a b = -a / -b := by
  rw [soundLowDiv, if_pos hb, lowDiv_eq (by omega)]

theorem soundUpDiv_pos (hb : 0 < b) : soundUpDiv a b = -(-a / b) := by
  rw [soundUpDiv, if_neg (by omega), upDiv_eq hb]

theorem soundUpDiv_neg (hb : b < 0) : soundUpDiv a b = -(a / -b) := by
  rw [soundUpDiv, if_pos hb, upDiv_eq (by omega), neg_neg]

theorem quotientRange_mem (hx : minX ≤ x ∧ x ≤ maxX) (hz : minZ ≤ z ∧ z ≤ maxZ) (hone : oneSign minX maxX = true)
    (h : x * y = z) :
    (quotientRange minZ maxZ minX maxX).1 ≤ y ∧ y ≤ (quotientRange minZ maxZ minX maxX).2 := by
  simp only [oneSign, decide_eq_true_eq] at hone
  simp only [quotientRange, min4, max4, min_le_iff, le_max_iff]
  rcases hone with ⟨hpos, -⟩ | ⟨hneg, -⟩
  · rw [soundLowDiv_pos hpos, soundLowDiv_pos (show 0 < maxX by omega), soundUpDiv_pos hpos,
      soundUpDiv_pos (show 0 < maxX by omega), soundUpDiv_pos hpos, soundUpDiv_pos (show 0 < maxX by omega)]
    exact ⟨.inl (.inl (IntInterval.ediv_le_of_mul_eq hpos hx.1 hx.2 hz.1 h)),
      (IntInterval.le_neg_ediv_of_mul_eq hpos hx.1 hx.2 hz.2 h).elim (fun hle => .inl (.inr hle)) .inr⟩
  · have hxy : -x * y = -z := by rw [neg_mul, h]
    rw [soundLowDiv_neg hneg, soundLowDiv_neg hneg, soundLowDiv_neg (show minX < 0 by omega),
      soundLowDiv_neg (show minX < 0 by omega), soundUpDiv_neg hneg, soundUpDiv_neg (show minX < 0 by omega),
      soundUpDiv_neg hneg, soundUpDiv_neg (show minX < 0 by omega)]
    refine ⟨?_, ?_⟩
    · rcases IntInterval.ediv_le_of_mul_eq (a := -maxX) (b := -minX) (c := -maxZ) (by omega) (by omega) (by omega)
        (by omega) hxy with hle | hle
      · exact .inr hle
      · exact .inl (.inr hle)
    · rcases IntInterval.le_neg_ediv_of_mul_eq (a := -maxX) (b := -minX) (d := -minZ) (by omega) (by omega)
        (by omega) (by omega) hxy with hle | hle
      · rw [neg_neg] at hle
        exact .inl (.inl (.inr hle))
      · rw [neg_neg] at hle
        exact .inl (.inl (.inl hle))

theorem productRange_mem (hx : minX ≤ x ∧ x ≤ maxX) (hy : minY ≤ y ∧ y ≤ maxY) :
    (productRange minX maxX minY maxY).1 ≤ x * y ∧ x * y ≤ (productRange minX maxX minY maxY).2 := by
  unfold productRange
  split_ifs with hpos
  · exact ⟨mul_le_mul hx.1 hy.1 hpos.2 (by omega), mul_le_mul hx.2 hy.2 (by omega) (by omega)⟩
  · have h := IntInterval.mul_mem_of_mem hx.1 hx.2 hy.1 hy.2
    simpa only [min4, max4, min_assoc, max_assoc] using h

end

/-! ## Looking for a support -/

variable {dx : Dvar} {fits : Prop}

section
variable {d : Dvar} {test : ℤ → Except Stop Bool} {e : ℤ}

/-- An inner loop returns, and `true` if one of the elements from `e` on passes the test. -/
theorem searchLoop_spec (h : d.Shape) (htest : ∀ e, ∃ b, test e = .ok b) :
    ∀ (fuel : ℕ) (e : ℤ), d.last - e < fuel → e ≤ d.last → (∀ b, d.type = .bv b → b.low ≤ e + 1) →
      ∃ b, searchLoop d d.last test fuel e = .ok b ∧
        (∀ v, v = e ∨ e < v ∧ v ≤ d.last ∧ d.type.has v = true → test v = .ok true → b = true) ∧
        (b = true → ∃ v, e ≤ v ∧ v ≤ d.last ∧ test v = .ok true) := by
  intro fuel
  induction fuel with
  | zero =>
    intro e hlt hle
    omega
  | succ fuel ih =>
    intro e hlt hle hlow
    obtain ⟨b, hb⟩ := htest e
    simp only [searchLoop, hb, bind, Except.bind]
    by_cases hfound : b = true
    · rw [if_pos hfound]
      exact ⟨true, rfl, fun _ _ _ => rfl, fun _ => ⟨e, le_refl _, hle, hfound ▸ hb⟩⟩
    have hnot : test e ≠ .ok true := fun htrue => hfound (Except.ok.inj (hb.symm.trans htrue))
    rw [if_neg hfound]
    by_cases hlast : e = d.last
    · rw [if_pos hlast]
      refine ⟨false, rfl, fun v hv htrue => ?_, fun hf => absurd hf Bool.false_ne_true⟩
      rcases hv with rfl | ⟨hlt', hle', -⟩
      · exact absurd htrue hnot
      · omega
    rw [if_neg hlast]
    obtain ⟨e', he', hin, hle'⟩ := h.nextElm hlow (by omega)
    have hge := hin.le
    simp only [he']
    obtain ⟨b', hb', hsome, hall⟩ := ih e' (by push_cast at hlt; omega) hle' fun b' hb' => by
      have := hlow b' hb'
      omega
    refine ⟨b', hb', fun v hv htrue => ?_, fun hbt => ?_⟩
    · rcases hv with rfl | ⟨hlt', hle'', hmem⟩
      · exact absurd htrue hnot
      · refine hsome v ?_ htrue
        have := hin.le_of_mem (show e + 1 ≤ v by omega) hmem
        rcases this.eq_or_lt with heq | hlt''
        · exact .inl heq.symm
        · exact .inr ⟨hlt'', hle'', hmem⟩
    · obtain ⟨v, hev, hvl, htrue⟩ := hall hbt
      exact ⟨v, by omega, hvl, htrue⟩

theorem searchDomain_spec (test : ℤ → Except Stop Bool) (minX : ℤ) (h : d.Shape) (htest : ∀ e, ∃ b, test e = .ok b)
    (hmin : minX ≤ d.last) (hlow : ∀ b, d.type = .bv b → b.low ≤ minX + 1) :
    ∃ b, searchDomain d minX d.last test = .ok b ∧
      (∀ v, minX ≤ v → v ≤ d.last → d.type.has v = true → test v = .ok true → b = true) ∧
      (b = true → ∃ v, minX ≤ v ∧ v ≤ d.last ∧ test v = .ok true) := by
  obtain ⟨b, hb, hsome, hall⟩ := searchLoop_spec h htest ((d.last - minX).toNat + 1) minX (by omega) hmin hlow
  refine ⟨b, hb, fun v hle hvl hmem htrue => hsome v ?_ htrue, hall⟩
  rcases hle.eq_or_lt with heq | hlt
  · exact .inl heq.symm
  · exact .inr ⟨hlt, hvl, hmem⟩

theorem searchDomain_first {minX maxX : ℤ} (htest : test minX = .ok true) : searchDomain d minX maxX test = .ok true := by
  simp only [searchDomain, searchLoop, htest, bind, Except.bind, if_true]
  rfl

theorem searchDomain_oob {minX maxX : ℤ} {b : BitVector} (hd : d.type = .bv b) (htest : test minX = .ok false)
    (hlt : minX < maxX) (hlow : minX + 1 < b.low) : searchDomain d minX maxX test = .error .oob := by
  have hoff : wordOffset b (minX + 1) = .error .oob := wordOffset_of_not_mem (.inl hlow)
  simp only [searchDomain, searchLoop, htest, bind, Except.bind, Bool.false_eq_true, if_false, if_neg hlt.ne,
    nextElm, domainNextBv, Dvar.bvPtr, hd, bvNextIn, hoff, reduceCtorEq]

theorem dmTrue_total (h : d.Shape) (e : ℤ) : ∃ b, dmTrue d e = .ok b := ⟨_, dmTrue_eq h⟩

theorem zeroInEither_eq {dy : Dvar} (hx : dx.Shape) (hy : dy.Shape) :
    zeroInEither dx dy = .ok (decide (0 ∈ dx.elems ∨ 0 ∈ dy.elems)) := by
  simp only [zeroInEither, dmTrue_eq hx, dmTrue_eq hy, bind, Except.bind]
  by_cases h0 : (0 : ℤ) ∈ dx.elems
  · simp [h0, pure, Except.pure]
  · simp [h0]

/-- `eX` times an element of `D` is `eZ`. -/
def DividesInto (D : Finset ℤ) (eZ eX : ℤ) : Prop := eX ≠ 0 ∧ eX * eZ.tdiv eX = eZ ∧ eZ.tdiv eX ∈ D

instance (D : Finset ℤ) (eZ eX : ℤ) : Decidable (DividesInto D eZ eX) := inferInstanceAs (Decidable (_ ∧ _))

theorem dividesInto_eq (h : d.Shape) (eZ eX : ℤ) : dividesInto d eZ eX = .ok (decide (DividesInto d.elems eZ eX)) := by
  unfold dividesInto DividesInto
  split_ifs with h0 hmul
  · rw [dmTrue_eq h]
    simp [h0, hmul]
  · simp [hmul]
  · simp [not_not.1 h0]

theorem dividesInto_mul {D : Finset ℤ} {x y : ℤ} (hx : x ≠ 0) (hy : y ∈ D) : DividesInto D (x * y) x := by
  have hdiv : (x * y).tdiv x = y := Int.mul_tdiv_cancel_left y hx
  exact ⟨hx, by rw [hdiv], by rwa [hdiv]⟩

end

/-! ## The loops over a factor -/

section
variable {live : ℕ → Prop} {sol : ℕ → ℤ} {s₀ s : Store} {x y z : ℕ}

/-- The test of `exclude_unsupported_y_constr_xy_eq_z` returns, and accepts the value of a solution. -/
theorem supportedXyEqZ_spec {s' : Store} {e : ℤ} (h : Kept live sol s₀ s') (hx : live x) (hz : live z)
    (hmul : sol x * sol y = sol z) (hword : bplong (sol z) = sol z) (hxs : x ≠ y → s' x = s x) (hs : Kept live sol s₀ s) :
    ∃ b, supportedXyEqZ x y z (s x).first (s x).last s' e = .ok b ∧ (e = sol y → b = true) := by
  have hkx := h.keeps x hx
  have hkz := h.keeps z hz
  obtain ⟨b₀, hb₀⟩ : ∃ b, zeroSupported (s' z) e = .ok b := by
    unfold zeroSupported
    split_ifs
    · exact dmTrue_total hkz.shape 0
    · exact ⟨false, rfl⟩
  obtain ⟨b, hb, htrue⟩ : ∃ b, factorSupported s' x y z (s x).first (s x).last e = .ok b ∧ (e = sol y → b = true) := by
    unfold factorSupported
    split_ifs with hxy
    · obtain ⟨b, hb⟩ := dmTrue_total hkz.shape (bplong (e * e))
      refine ⟨b, hb, fun he => ?_⟩
      rw [he, show sol y * sol y = sol z by rw [← hmul, hxy], hword, hkz.dmTrue] at hb
      exact (Except.ok.inj hb).symm
    · rw [hxs hxy]
      have hkx' := hs.keeps x hx
      obtain ⟨b, hb, hsome, -⟩ := searchDomain_spec (fun eX => dmTrue (s' z) (bplong (eX * e))) _ hkx'.shape
        (fun eX => dmTrue_total hkz.shape _) hkx'.shape.le fun b hb => (hkx'.shape.low_le hb).trans (by omega)
      refine ⟨b, hb, fun he => hsome (sol x) hkx'.first_le hkx'.le_last (Dvar.mem_elems.1 hkx'.mem).2 ?_⟩
      rw [he, hmul, hword, hkz.dmTrue]
  refine ⟨b₀ || b, ?_, fun he => by rw [htrue he, Bool.or_true]⟩
  simp only [supportedXyEqZ, hb₀, hb, bind, Except.bind]
  rfl

theorem excludeUnsupportedYConstrXyEqZ_kept (h : Kept live sol s₀ s) (hx : live x) (hy : live y) (hz : live z)
    (hmul : sol x * sol y = sol z) (hword : bplong (sol z) = sol z) :
    ∃ s', excludeUnsupportedYConstrXyEqZ s x y z = .ok s' ∧ Kept live sol s₀ s' :=
  filterDomain_kept (P := fun _ _ => True) hy domainSetFalseNoint_excludes h trivial
    (fun _ _ hhead _ => supportedXyEqZ_spec hhead.kept hx hz hmul hword (fun hne => hhead.frame x hne) h)
    fun _ _ _ _ _ _ _ _ _ _ => trivial

theorem excludeUnsupportedYConstrXyEqC_kept {cz : ℤ} (h : Kept live sol s₀ s) (hx : live x) (hy : live y)
    (hmul : sol x * sol y = cz) (hword : bplong cz = cz) :
    ∃ s', excludeUnsupportedYConstrXyEqC s x y cz = .ok s' ∧ Kept live sol s₀ s' := by
  refine filterDomain_kept (P := fun _ _ => True) hy domainSetFalseNoint_excludes h trivial
    (fun s' e hhead _ => ?_) fun _ _ _ _ _ _ _ _ _ _ => trivial
  have hkx := hhead.kept.keeps x hx
  unfold supportedXyEqC
  split_ifs with h0 hxy hdvd
  · refine ⟨_, rfl, fun he => decide_eq_true ?_⟩
    rw [← hmul, ← he, h0, mul_zero]
  · refine ⟨_, rfl, fun he => decide_eq_true ?_⟩
    rw [he, show sol y * sol y = cz by rw [← hmul, hxy], hword]
  · obtain ⟨b, hb⟩ := dmTrue_total hkx.shape (cz.tdiv e)
    refine ⟨b, hb, fun he => ?_⟩
    rw [he] at h0 hb
    rw [← hmul, Int.mul_tdiv_cancel _ h0, hkx.dmTrue] at hb
    exact (Except.ok.inj hb).symm
  · refine ⟨_, rfl, fun he => absurd ?_ hdvd⟩
    rw [he] at h0 ⊢
    rw [← hmul, Int.mul_tdiv_cancel _ h0]

theorem multiplyByInt_kept {a : ℤ} {Y Z : FdTerm} (h : Kept live sol s₀ s) (hY : ∀ y, Y = .dvar y → live y)
    (hZ : ∀ z, Z = .dvar z → live z) (hmul : a * Y.val sol = Z.val sol) :
    ∃ s', multiplyByInt s a Y Z = .ok s' ∧ Kept live sol s₀ s' := by
  unfold multiplyByInt
  split
  · next y z =>
      split_ifs with ha
      · refine filterDomain_kept (P := fun _ _ => True) (hZ z rfl) domainSetFalseAux_excludes h trivial
          (fun s' e hhead _ => ?_) fun _ _ _ _ _ _ _ _ _ _ => trivial
        have hky := hhead.kept.keeps y (hY y rfl)
        simp only [FdTerm.val] at hmul
        unfold supportedByInt
        split_ifs with hdvd
        · obtain ⟨b, hb⟩ := dmTrue_total hky.shape (e.tdiv a)
          refine ⟨b, hb, fun he => ?_⟩
          rw [he, ← hmul, Int.mul_tdiv_cancel_left _ ha.1.1, hky.dmTrue] at hb
          exact (Except.ok.inj hb).symm
        · refine ⟨_, rfl, fun he => absurd ?_ hdvd⟩
          rw [he, ← hmul, Int.mul_tdiv_cancel_left _ ha.1.1]
      · exact ⟨s, rfl, h⟩
  · exact ⟨s, rfl, h⟩

end

/-! ## The loop over the product -/

/-- `eZ` is a product of an element between the bounds of `dx` and one of `dy`. -/
def HasFactor (dx dy : Dvar) (eZ : ℤ) : Prop :=
  eZ = 0 ∨ ∃ eX, dx.first ≤ eX ∧ eX ≤ dx.last ∧ DividesInto dy.elems eZ eX

/-- The loop over `Z`, when `Z` is the factor `dx`, a free variable with an interval: its least elements, up to `f`, have no
factors and are cut off; the next such element, `e`, makes it a vector, whose first word is that of `f`; and for a later
`v` the scan from the old lower bound is below that word before it has found a factor. -/
def StrayScan (dx dy : Dvar) : Prop :=
  dx.isInt = false ∧ dx.type = .it ∧ ∃ f e v, dx.first ≤ f ∧ f < e ∧ e < v ∧ v ≤ dx.last ∧
    (∀ i, dx.first ≤ i → i < f → ¬ HasFactor dx dy i) ∧ (∀ i, f ≤ i → i < e → HasFactor dx dy i) ∧
    ¬ HasFactor dx dy e ∧ dx.first + 1 < f / 64 * 64 ∧ v ≠ 0 ∧ ¬ DividesInto dy.elems v dx.first

/-- What the loop has made of `Z`, with `e` to be tested next: an interval still, or a vector that the scan for
factors can enter. -/
inductive ScanPhase (dx dy d : Dvar) (e : ℤ) : Prop
  | interval (hd : d.type = .it) (hfirst : dx.first ≤ d.first) (hle : d.first ≤ e)
      (hcut : ∀ i, dx.first ≤ i → i < d.first → ¬ HasFactor dx dy i)
      (hkeep : ∀ i, d.first ≤ i → i < e → HasFactor dx dy i)
  | vector {b : BitVector} (hd : d.type = .bv b) (hlow : b.low ≤ dx.first + 1)
  | found {b : BitVector} (hd : d.type = .bv b) (hall : ∀ v, e ≤ v → v ≤ dx.last → v = 0 ∨ DividesInto dy.elems v dx.first)

section
variable {d d' : Dvar} {e : ℤ}

theorem domainSetFalseNoint_first (hd : d.type = .it) (hgo : d'.isInt = false)
    (h : domainSetFalseNoint d d.first = .ok d') : d'.type = .it ∧ d'.first = d.first + 1 := by
  unfold domainSetFalseNoint at h
  rw [if_neg (by omega), if_pos rfl] at h
  split_ifs at h with hsize
  · obtain rfl := Except.ok.inj h
    simp [Dvar.isInt, assignDvar] at hgo
  · simp only [nextElm, hd, if_true, bind, Except.bind, pure, Except.pure, Except.ok.injEq] at h
    subst h
    exact ⟨hd, rfl⟩

theorem domainSetFalseNoint_inner (hd : d.type = .it) (hf : d.first < e) (hl : e < d.last)
    (h : domainSetFalseNoint d e = .ok d') : ∃ b, d'.type = .bv b ∧ b.low = d.first / 64 * 64 := by
  unfold domainSetFalseNoint itToBvWithHole at h
  rw [if_pos ⟨hf, hl⟩, if_pos hd] at h
  cases hstore : storeWord (itToBvWords d).words ((e - wordNumber d.first * 64).toNat / 64)
      (~~~(1#64 <<< ((e - wordNumber d.first * 64).toNat % 64))) with
  | error err => simp only [hstore, bind, Except.bind, reduceCtorEq] at h
  | ok words =>
    simp only [hstore, bind, Except.bind, pure, Except.pure, Except.ok.injEq] at h
    subst h
    exact ⟨_, rfl, by rw [← wordNumber_eq]; rfl⟩

end

section
variable {live : ℕ → Prop} {sol : ℕ → ℤ} {s₀ s s' : Store} {x y z : ℕ} {e : ℤ}

/-- The test of the loop over `Z` returns where the scan for factors can start, and accepts the value of a solution. -/
theorem supportedProduct_spec (minX : ℤ) (h : Kept live sol s₀ s') (hx : live x) (hy : live y)
    (hmul : sol x * sol y = sol z) (hfirst : minX ≤ (s' x).first)
    (hscan : x ≠ y → e ≠ 0 → (∀ b, (s' x).type = .bv b → b.low ≤ minX + 1) ∨ DividesInto (s' y).elems e minX) :
    ∃ b, supportedProduct x y minX (s' x).last s' e = .ok b ∧ (e = sol z → b = true) := by
  have hkx := h.keeps x hx
  have hky := h.keeps y hy
  unfold supportedProduct
  split_ifs with h0 hxy
  · rw [zeroInEither_eq hkx.shape hky.shape]
    refine ⟨_, rfl, fun he => decide_eq_true ?_⟩
    rcases mul_eq_zero.1 (hmul.trans (he.symm.trans h0)) with h | h
    · exact .inl (h ▸ hkx.mem)
    · exact .inr (h ▸ hky.mem)
  · refine ⟨_, rfl, fun he => decide_eq_true ?_⟩
    have hsq : sol y * sol y = e := by rw [he, ← hmul, hxy]
    rw [← hsq, Int.sqrt_eq, Int.natAbs_mul_self']
    refine ⟨?_, rfl⟩
    have := mul_self_nonneg (sol y)
    omega
  · rcases hscan hxy h0 with hlow | hdiv
    · obtain ⟨b, hb, hsome, -⟩ := searchDomain_spec (dividesInto (s' y) e) _ hkx.shape
        (fun eX => ⟨_, dividesInto_eq hky.shape e eX⟩) (hfirst.trans hkx.shape.le) hlow
      refine ⟨b, hb, fun he => hsome (sol x) (hfirst.trans hkx.first_le) hkx.le_last (Dvar.mem_elems.1 hkx.mem).2 ?_⟩
      rw [dividesInto_eq hky.shape, he, ← hmul, decide_eq_true (dividesInto_mul ?_ hky.mem)]
      intro hx0
      rw [hx0, zero_mul] at hmul
      exact h0 (he.trans hmul.symm)
    · refine ⟨true, searchDomain_first ?_, fun _ => rfl⟩
      rw [dividesInto_eq hky.shape, decide_eq_true hdiv]

/-- While `Z` is still an interval, the test of the loop decides whether there are factors. -/
theorem supportedProduct_interval {b : Bool} (hxy : x ≠ y) (hx : (s' x).Shape) (hy : (s' y).Shape)
    (hd : (s' x).type = .it) (hlast : (s' x).last = dx.last) (hfirst : dx.first ≤ (s' x).first)
    (he : (s' x).first ≤ e) (hel : e ≤ dx.last)
    (h : supportedProduct x y dx.first dx.last s' e = .ok b) : b = true ↔ HasFactor dx (s' y) e := by
  unfold supportedProduct at h
  unfold HasFactor
  split_ifs at h with h0
  · rw [zeroInEither_eq hx hy] at h
    obtain rfl := Except.ok.inj h
    have hmem : (0 : ℤ) ∈ (s' x).elems := Dvar.mem_elems.2 ⟨by omega, by rw [hd]; rfl⟩
    simp [h0, hmem]
  · rw [← hlast] at h ⊢
    obtain ⟨b', hb', hsome, hall⟩ := searchDomain_spec (dividesInto (s' y) e) _ hx
      (fun eX => ⟨_, dividesInto_eq hy e eX⟩) (hfirst.trans hx.le) fun b hb => by rw [hd] at hb; contradiction
    obtain rfl : b' = b := Except.ok.inj (hb'.symm.trans h)
    simp only [dividesInto_eq hy, Except.ok.injEq, decide_eq_true_eq] at hsome hall
    refine ⟨fun hb => .inr (hall hb), fun hf => ?_⟩
    obtain ⟨eX, h1, h2, hdiv⟩ := hf.resolve_left h0
    exact hsome eX h1 h2 (by rw [hd]; rfl) hdiv

theorem Narrowed.sameRange {d d' : Dvar} {S : Finset ℤ} (hn : Narrowed d S fits d') : d.type.SameRange d'.type := by
  cases hn with
  | updated hvar hcs hrange hshape helems henough hexact => exact hrange
  | assigned hS hexact => exact .refl _

theorem Narrowed.first_le {d d' : Dvar} (hn : Narrowed d (d.elems.erase e) fits d') : d.first ≤ d'.first := by
  cases hn with
  | updated hvar hcs hrange hshape helems henough hexact =>
    have hmem := hshape.first_mem_elems
    rw [helems] at hmem
    exact (Dvar.mem_elems.1 (Finset.mem_of_mem_erase hmem)).1.1
  | assigned hS hexact => exact le_refl _

theorem Narrowed.isInt {d d' : Dvar} {S : Finset ℤ} (hn : Narrowed d S fits d') (hd : d'.isInt = false) :
    d.isInt = false := by
  cases hn with
  | updated hvar hcs hrange hshape helems henough hexact => simpa only [Dvar.isInt, hvar] using hd
  | assigned hS hexact => simp [Dvar.isInt, assignDvar] at hd

theorem ScanPhase.next {dy d d' : Dvar} {v e' : ℤ} {b : Bool} (hp : ScanPhase dx dy d e) (hstray : ¬ StrayScan dx dy)
    (hit : d.type = .it → dx.type = .it) (hlast : d.last = dx.last) (he : e < dx.last)
    (hfree : d'.isInt = false → dx.isInt = false) (hb : d.type = .it → d.first ≤ e → (b = true ↔ HasFactor dx dy e))
    (hround : Round domainSetFalseNoint true v d e b d' e') : ScanPhase dx dy d' e' := by
  have hrange : d.type.SameRange d'.type := by
    rcases hround.narrowed with rfl | hn
    · exact .refl _
    · exact hn.sameRange
  have hnext := hround.next
  have hee := hround.lt
  cases hp with
  | interval hd hfirst hle hcut hkeep =>
    have hiff := hb hd hle
    rcases hround.test with ⟨rfl, rfl⟩ | ⟨rfl, hset, hgo⟩
    · have he' : e + 1 = e' := by simpa [nextElm, hd, pure, Except.pure] using hnext
      refine .interval hd hfirst (by omega) hcut fun i hi hie => ?_
      rcases (show i ≤ e by omega).eq_or_lt with rfl | hlt
      · exact hiff.1 rfl
      · exact hkeep i hi hlt
    have hno : ¬ HasFactor dx dy e := fun hf => Bool.false_ne_true (hiff.2 hf)
    rcases hle.eq_or_lt with heq | hlt
    · subst heq
      obtain ⟨hd', hfirst'⟩ := domainSetFalseNoint_first hd (hgo rfl) hset
      have he' : d.first + 1 = e' := by simpa [nextElm, hd', pure, Except.pure] using hnext
      refine .interval hd' (by omega) (by omega) (fun i hi hie => ?_) fun i hi hie => by omega
      rcases (show i ≤ d.first by omega).eq_or_lt with rfl | hlt
      · exact hno
      · exact hcut i hi hlt
    · obtain ⟨b, hd', hlow⟩ := domainSetFalseNoint_inner hd hlt (by omega) hset
      by_cases hword : b.low ≤ dx.first + 1
      · exact .vector hd' hword
      · refine .found hd' fun v hv hvl => ?_
        by_contra hnot
        rw [not_or] at hnot
        exact hstray ⟨hfree (hgo rfl), hit hd, d.first, e, v, hfirst, hlt, by omega, hvl, hcut, hkeep, hno, by omega,
          hnot.1, hnot.2⟩
  | vector hd hlow =>
    obtain ⟨b', hb', hlow', -⟩ := hrange _ hd
    exact .vector hb' (by omega)
  | found hd hall =>
    obtain ⟨b', hb', -, -⟩ := hrange _ hd
    exact .found hb' fun v hv hvl => hall v (by omega) hvl

theorem excludeProducts_kept (h : Kept live sol s₀ s) (hx : live x) (hy : live y) (hz : live z)
    (hmul : sol x * sol y = sol z) (hstray : ¬ (z = x ∧ x ≠ y ∧ StrayScan (s x) (s y))) :
    ∃ s', excludeProducts s x y z = .ok s' ∧ Kept live sol s₀ s' := by
  have hkx := h.keeps x hx
  by_cases halias : z = x ∧ x ≠ y
  · obtain ⟨rfl, hxy⟩ := halias
    have hno : ¬ StrayScan (s z) (s y) := fun hs => hstray ⟨rfl, hxy, hs⟩
    refine filterDomain_kept
      (P := fun s' e => ScanPhase (s z) (s y) (s' z) e ∧ (s z).first ≤ (s' z).first ∧
        ((s' z).type = .it → (s z).type = .it) ∧ ((s' z).isInt = false → (s z).isInt = false))
      hz domainSetFalseNoint_excludes h ⟨?_, le_refl _, id, id⟩ (fun s' e hhead hP => ?_)
      fun s' e b d' e' hhead hP he hb hround => ?_
    · cases hd : (s z).type with
      | it => exact .interval hd (le_refl _) (le_refl _) (fun i _ _ => by omega) fun i _ _ => by omega
      | bv b => exact .vector hd ((hkx.shape.low_le hd).trans (by omega))
    · rw [← hhead.last_eq]
      refine supportedProduct_spec _ hhead.kept hx hy hmul hP.2.1 fun _ h0 => ?_
      cases hP.1 with
      | interval hd hfirst hle hcut hkeep => exact .inl fun b hb => by rw [hd] at hb; contradiction
      | vector hd hlow =>
        refine .inl fun b hb => ?_
        rw [hd] at hb
        rwa [← DvType.bv.inj hb]
      | found hd hall =>
        rw [hhead.frame y hxy.symm]
        exact .inr ((hall e (le_refl _) hhead.le).resolve_left h0)
    · have hky := (hhead.kept.keeps y hy).shape
      have hkz := (hhead.kept.keeps z hx).shape
      rw [update_self]
      have hfree : d'.isInt = false → (s z).isInt = false := fun hd => hP.2.2.2 <| by
        rcases hround.narrowed with rfl | hn
        · exact hd
        · exact hn.isInt hd
      refine ⟨hP.1.next hno hP.2.2.1 hhead.last_eq he hfree (fun hd hle => ?_) hround, ?_, fun hd => hP.2.2.1 ?_, hfree⟩
      · rw [← hhead.frame y hxy.symm]
        exact supportedProduct_interval hxy hkz hky hd hhead.last_eq hP.2.1 hle he.le hb
      · rcases hround.narrowed with rfl | hn
        · exact hP.2.1
        · exact hP.2.1.trans hn.first_le
      · rcases hround.narrowed with rfl | hn
        · exact hd
        · by_contra hbv
          obtain ⟨b', hb'⟩ := Dvar.exists_bv hbv
          obtain ⟨b'', hb'', -, -⟩ := hn.sameRange _ hb'
          rw [hd] at hb''
          contradiction
  · refine filterDomain_kept (P := fun s' _ => x ≠ y → s' x = s x) hz domainSetFalseNoint_excludes h
      (fun _ => rfl) (fun s' e hhead hP => ?_) fun s' e b d' e' hhead hP he hb hround hxy => ?_
    · by_cases hxy : x = y
      · subst hxy
        obtain ⟨b, hb, hsol⟩ := supportedProduct_spec (s' x).first hhead.kept hx hx hmul (le_refl _)
          fun hne => absurd rfl hne
        refine ⟨b, ?_, hsol⟩
        rw [← hb]
        simp only [supportedProduct, if_true]
      · rw [← hP hxy]
        exact supportedProduct_spec _ hhead.kept hx hy hmul (le_refl _) fun _ _ =>
          .inl fun b hb => ((hhead.kept.keeps x hx).shape.low_le hb).trans (by omega)
    · rw [update_of_ne fun heq => halias ⟨heq.symm, hxy⟩]
      exact hP hxy

section
variable {exclude : Dvar → ℤ → Except Stop Dvar} {stops : Bool} {supported : Store → ℤ → Except Stop Bool} {r fuel : ℕ}

theorem filterLoop_accept {last e' : ℤ} (hb : supported s e = .ok true)
    (hlt : e < last) (hnext : nextElm (s r) e = .ok e') :
    filterLoop exclude stops supported r last (fuel + 1) s e = filterLoop exclude stops supported r last fuel s e' := by
  simp only [filterLoop, excludeUnsupported_of_true hb, bind, Except.bind, Bool.and_false, Bool.false_and,
    Bool.false_eq_true, if_false, if_neg hlt.ne, hnext]

theorem filterLoop_exclude {d' : Dvar} {last e' : ℤ}
    (hb : supported s e = .ok false) (hd' : exclude (s r) e = .ok d') (hfree : d'.isInt = false) (hlt : e < last)
    (hnext : nextElm d' e = .ok e') :
    filterLoop exclude stops supported r last (fuel + 1) s e =
      filterLoop exclude stops supported r last fuel (update s r d') e' := by
  simp only [filterLoop, excludeUnsupported_of_false hb hd', bind, Except.bind, Bool.false_eq_true, if_false,
    update_self, hfree, Bool.and_false, if_neg hlt.ne, hnext]

end

/-- Once the interval has become a vector that starts too late, the first element without a factor at the old lower
bound makes the scan leave the vector. -/
theorem filterProducts_vector_oob {b : BitVector} {v : ℤ} (hxy : x ≠ y) (hy : (s y).Shape) (hx : (s x).Shape)
    (hd : (s x).type = .bv b) (hlow : dx.first + 1 < b.low) (hlast : (s x).last = dx.last) (hv : v ≤ dx.last)
    (hv0 : v ≠ 0) (hdiv : ¬ DividesInto (s y).elems v dx.first) (hlt : dx.first < dx.last) :
    ∀ (fuel : ℕ) (e : ℤ), v - e < fuel → e ≤ v → (s x).first ≤ e →
      (∀ i, e ≤ i → i ≤ dx.last → (s x).type.has i = true) →
      filterLoop domainSetFalseNoint true (supportedProduct x y dx.first dx.last) x dx.last fuel s e = .error .oob := by
  intro fuel
  induction fuel with
  | zero =>
    intro e hfuel hev
    omega
  | succ fuel ih =>
    intro e hfuel hev hfirst hhas
    -- an element that is `0` or has the old lower bound as a factor is passed over
    by_cases hpass : e = 0 ∨ DividesInto (s y).elems e dx.first
    · have hne : e ≠ v := by
        rintro rfl
        exact hpass.elim hv0 hdiv
      have hb : supportedProduct x y dx.first dx.last s e = .ok true := by
        unfold supportedProduct
        split_ifs with h0
        · have hmem : e ∈ (s x).elems := Dvar.mem_elems.2 ⟨by omega, hhas e (le_refl _) (by omega)⟩
          rw [h0] at hmem
          rw [zeroInEither_eq hx hy, decide_eq_true (.inl hmem)]
        · apply searchDomain_first
          rw [dividesInto_eq hy, decide_eq_true (hpass.resolve_left h0)]
      have hnext : nextElm (s x) e = .ok (e + 1) := by
        have hself : NextIn b.has (e + 1) (e + 1) :=
          NextIn.self (by simpa only [hd, DvType.has_bv] using hhas (e + 1) (by omega) (by omega))
        have hlowe := b.low_le (by simpa only [hd, DvType.has_bv] using hhas e (le_refl _) (by omega))
        rw [nextElm, if_neg (by rw [hd]; simp)]
        simp only [domainNextBv, Dvar.bvPtr, hd, bind, Except.bind]
        exact bvNextIn_eq (by omega) hself
      rw [filterLoop_accept hb (by omega) hnext]
      exact ih (e + 1) (by push_cast at hfuel; omega) (by omega) (by omega) fun i hi => hhas i (by omega)
    · have hb : supportedProduct x y dx.first dx.last s e = .error .oob := by
        rw [not_or] at hpass
        rw [supportedProduct, if_neg hpass.1, if_neg hxy]
        refine searchDomain_oob hd ?_ hlt hlow
        rw [dividesInto_eq hy, decide_eq_false hpass.2]
      simp only [filterLoop, excludeUnsupported, hb, bind, Except.bind]

/-- The rounds before that: the elements below `f` are cut off one by one, those from `f` to `e₁` stay, and `e₁` makes
the interval a vector. -/
theorem filterProducts_interval_oob {f e₁ v : ℤ} (hxy : x ≠ y) (hy : (s₀ y).Shape) (hfe : f < e₁)
    (hev : e₁ < v) (hv : v ≤ dx.last) (hcut : ∀ i, dx.first ≤ i → i < f → ¬ HasFactor dx (s₀ y) i)
    (hkeep : ∀ i, f ≤ i → i < e₁ → HasFactor dx (s₀ y) i) (hno : ¬ HasFactor dx (s₀ y) e₁)
    (hword : dx.first + 1 < f / 64 * 64) (hv0 : v ≠ 0) (hdiv : ¬ DividesInto (s₀ y).elems v dx.first) :
    ∀ (fuel : ℕ) (s : Store) (e : ℤ), dx.last - e < fuel → s y = s₀ y → dx.first ≤ e → e ≤ e₁ →
      (s x).Shape → (s x).Enough → (s x).isInt = false → (s x).type = .it → (s x).last = dx.last →
      (s x).first = min e f →
      filterLoop domainSetFalseNoint true (supportedProduct x y dx.first dx.last) x dx.last fuel s e = .error .oob := by
  intro fuel
  induction fuel with
  | zero =>
    intro s e hfuel _ _ hle
    omega
  | succ fuel ih =>
    intro s e hfuel hsy hge hle hshape henough hfree hd hlast hfirst
    push_cast at hfuel
    have hyS : (s y).Shape := hsy ▸ hy
    obtain ⟨b, hb⟩ : ∃ b, supportedProduct x y dx.first dx.last s e = .ok b := by
      unfold supportedProduct
      split_ifs with h0
      · exact ⟨_, zeroInEither_eq hshape hyS⟩
      · rw [← hlast]
        obtain ⟨b, hb, -, -⟩ := searchDomain_spec (dividesInto (s y) e) dx.first hshape
          (fun eX => ⟨_, dividesInto_eq hyS e eX⟩) (by omega) fun b hb => by rw [hd] at hb; contradiction
        exact ⟨b, hb⟩
    have hiff := supportedProduct_interval hxy hshape hyS hd hlast (by omega) (by omega) (by omega) hb
    rw [hsy] at hiff
    have hnext : ∀ d : Dvar, d.type = .it → nextElm d e = .ok (e + 1) := fun d hd => by
      rw [nextElm, if_pos hd]
      rfl
    by_cases hfac : HasFactor dx (s₀ y) e
    · have hef : f ≤ e := by
        by_contra hlt
        exact hcut e hge (by omega) hfac
      have hne : e ≠ e₁ := by
        rintro rfl
        exact hno hfac
      rw [filterLoop_accept (hb.trans (by rw [hiff.2 hfac])) (by omega) (hnext _ hd)]
      exact ih s (e + 1) (by omega) hsy (by omega) (by omega) hshape henough hfree hd hlast (by omega)
    have hb' : supportedProduct x y dx.first dx.last s e = .ok false :=
      hb.trans (by rw [Bool.eq_false_iff.2 fun hbt => hfac (hiff.1 hbt)])
    have hmem : ∀ i, (s x).first ≤ i → i ≤ (s x).last → i ∈ (s x).elems := fun i h1 h2 =>
      Dvar.mem_elems.2 ⟨⟨h1, h2⟩, by rw [hd]; rfl⟩
    have hrest : ∀ i, e < i → i ≤ dx.last → i ∈ (s x).elems.erase e := fun i h1 h2 =>
      Finset.mem_erase.2 ⟨by omega, hmem i (by omega) (by omega)⟩
    obtain ⟨d', hd', hn⟩ := domainSetFalseNoint_narrowed (e := e) hshape henough
      ⟨v, hrest v (by omega) (by omega)⟩
    -- two elements are left, so the variable is not assigned
    cases hn with
    | assigned hS _ =>
      have h1 := hrest v (by omega) (by omega)
      have h2 := hrest (e + 1) (by omega) (by omega)
      rw [hS, Finset.mem_singleton] at h1 h2
      have hfirst' : (s x).first ∈ (s x).elems.erase e ↔ _ := hS ▸ Finset.mem_singleton
      rw [Finset.mem_erase] at hfirst'
      have := hmem (s x).first (le_refl _) hshape.le
      by_cases heq : e = e₁
      · have := hfirst'.1 ⟨by omega, this⟩
        omega
      · omega
    | updated hvar hcs hrange hshape' helems henough' hexact =>
      have hfree' : d'.isInt = false := by simpa only [Dvar.isInt, hvar] using hfree
      have hlast' : d'.last = dx.last := by
        have h1 := hshape'.last_mem_elems
        have h2 := hrest dx.last (by omega) (le_refl _)
        rw [helems, Finset.mem_erase] at h1
        rw [← helems] at h2
        have := (Dvar.mem_elems.1 h1.2).1
        have := (Dvar.mem_elems.1 h2).1
        omega
      have hupd : update s x d' y = s y := update_of_ne hxy.symm _ _
      by_cases heq : e = e₁
      · obtain ⟨b', hbv, hlow⟩ := domainSetFalseNoint_inner hd (by omega) (by omega) hd'
        have hhas : ∀ i, e < i → i ≤ dx.last → d'.type.has i = true := fun i h1 h2 =>
          (Dvar.mem_elems.1 (helems ▸ hrest i h1 h2)).2
        have hnext' : nextElm d' e = .ok (e + 1) := by
          have hself : NextIn b'.has (e + 1) (e + 1) :=
            NextIn.self (by simpa only [hbv, DvType.has_bv] using hhas (e + 1) (by omega) (by omega))
          rw [nextElm, if_neg (by rw [hbv]; simp)]
          simp only [domainNextBv, Dvar.bvPtr, hbv, bind, Except.bind]
          exact bvNextIn_eq (by omega) hself
        have hfirst' := (Dvar.mem_elems.1 (helems ▸ hrest (e + 1) (by omega) (by omega))).1.1
        rw [filterLoop_exclude hb' hd' hfree' (by omega) hnext']
        refine filterProducts_vector_oob (b := b') (v := v) hxy (hupd ▸ hyS) ?_ ?_ (by omega) ?_ hv hv0 ?_
          (by omega) fuel (e + 1) (by omega) (by omega) ?_ fun i h1 h2 => ?_
        · rwa [update_self]
        · rwa [update_self]
        · rwa [update_self]
        · rwa [hupd, hsy]
        · rwa [update_self]
        · rw [update_self]
          exact hhas i (by omega) h2
      · have hef : e < f := by
          by_contra hge'
          exact hfac (hkeep e (by omega) (by omega))
        have hxe : (s x).first = e := by omega
        obtain ⟨hit, hfirst'⟩ := domainSetFalseNoint_first hd hfree' (hxe ▸ hd')
        rw [filterLoop_exclude hb' hd' hfree' (by omega) (hnext _ hit)]
        refine ih _ (e + 1) (by omega) (hupd.trans hsy) (by omega) (by omega) ?_ ?_ ?_ ?_ ?_ ?_
        all_goals rw [update_self]
        · exact hshape'
        · exact henough'
        · exact hfree'
        · exact hit
        · exact hlast'
        · omega

theorem excludeProducts_oob (hxy : x ≠ y) (hx : (s x).Shape) (henough : (s x).Enough) (hy : (s y).Shape)
    (h : StrayScan (s x) (s y)) : excludeProducts s x y x = .error .oob := by
  obtain ⟨hfree, hd, f, e, v, hf, hfe, hev, hv, hcut, hkeep, hno, hword, hv0, hdiv⟩ := h
  exact filterProducts_interval_oob hxy hy hfe hev hv hcut hkeep hno hword hv0 hdiv _ s _ (by push_cast; omega) rfl
    (le_refl _) (by omega) hx henough hfree hd rfl (by omega)

end

end Picat
