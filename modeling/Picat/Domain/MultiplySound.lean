import Picat.Domain.MultiplyLoops

/-!
# Soundness of the multiplication propagator

One call of `b_CLPFD_MULTIPLY_INT_ccc` against a solution of `X * Y = Z` inside the domains it starts from. Each stage
keeps the values of the solution, so the call succeeds and removes none of them, with one exception: the last
loop can leave a vector when `Z` is one of the factors (`StrayScan`).

* `bClpfdMultiplyIntCcc_iff` : in general it does if and only if it does not go astray there.
-/

namespace Picat

/-! ## Arguments and solutions -/

/-- An argument as the callers pass it: an integer or a domain variable, of one word, assigned or free; the size a free
variable records is not too small. -/
def FdTerm.Entry (s : Store) : FdTerm → Prop
  | .int v => bpIn1WIntRange v
  | .dvar r =>
    (∃ v, (s r).var = .int v ∧ bpIn1WIntRange v) ∨
      ((s r).var = .susp ∧ (s r).Shape ∧ (s r).Enough ∧ bpMinint1W ≤ (s r).first ∧ (s r).last ≤ bpMaxint1W)

def FdTerm.Holds (s : Store) (sol : ℕ → ℤ) : FdTerm → Prop
  | .int _ => True
  | .dvar r => sol r ∈ (s r).dom

/-- A solution of `X * Y = Z` inside the domains. -/
structure MultiplySolution (s : Store) (X Y Z : FdTerm) (sol : ℕ → ℤ) : Prop where
  left : X.Holds s sol
  right : Y.Holds s sol
  product : Z.Holds s sol
  eq : X.val sol * Y.val sol = Z.val sol

/-- A dereferenced argument stands for the value `v`. -/
def FdTerm.Stands (live : ℕ → Prop) (sol : ℕ → ℤ) (v : ℤ) : FdTerm → Prop
  | .int c => c = v
  | .dvar r => live r ∧ sol r = v

section
variable {live : ℕ → Prop} {sol : ℕ → ℤ} {s₀ s : Store} {t : FdTerm}

theorem FdTerm.Entry.deref (h : t.Entry s) (hs : t.Holds s sol) : Picat.deref s t = .int (t.val sol) ∨
      ∃ r, Picat.deref s t = .dvar r ∧ sol r = t.val sol ∧ Keeps (s r) (sol r) := by
  cases t with
  | int v => exact .inl rfl
  | dvar r =>
    rcases h with ⟨v, hv, -⟩ | ⟨hsusp, hshape, henough, -, -⟩
    · have hmem : sol r ∈ (s r).dom := hs
      rw [Dvar.dom_int hv, Finset.mem_singleton] at hmem
      simp only [Picat.deref, hv, FdTerm.val, hmem]
      exact .inl trivial
    · have hmem : sol r ∈ (s r).dom := hs
      rw [Dvar.dom_susp hsusp] at hmem
      refine .inr ⟨r, by simp only [Picat.deref, hsusp], rfl, hshape, henough, hmem, fun w hw => ?_⟩
      rw [hsusp] at hw
      contradiction

theorem FdTerm.Entry.word (h : t.Entry s) (hs : t.Holds s sol) : bpIn1WIntRange (t.val sol) := by
  cases t with
  | int v => exact h
  | dvar r =>
    have hmem : sol r ∈ (s r).dom := hs
    rcases h with ⟨v, hv, hword⟩ | ⟨hsusp, -, -, hlow, hup⟩
    · rw [Dvar.dom_int hv, Finset.mem_singleton] at hmem
      simpa only [FdTerm.val, hmem] using hword
    · rw [Dvar.dom_susp hsusp] at hmem
      have := (Dvar.mem_elems.1 hmem).1
      exact ⟨hlow.trans this.1, this.2.trans hup⟩

/-! ## The stages -/

theorem returnIfInt_ends {r : ℕ} (h : Kept live sol s₀ s) :
    Exit.Ends (returnIfInt s r) (Kept live sol s₀) (Kept live sol s₀) := by
  unfold returnIfInt
  split_ifs
  · exact .ret h
  · exact .ok h

theorem regionOrReturn_ends {r : ℕ} {f t : ℤ} (h : Kept live sol s₀ s) (hr : live r) (hf : f ≤ sol r) (ht : sol r ≤ t) :
    Exit.Ends (regionOrReturn s r f t) (Kept live sol s₀) (Kept live sol s₀) :=
  .bind (.call (h.updateM hr ((h.keeps r hr).regionNoint hf ht))) fun _ hs => returnIfInt_ends hs

section
variable {x y : ℕ} {Z : FdTerm} {zv fdRegionLow fdRegionUp minX maxX minY maxY minZ maxZ : ℤ}

section
variable (h : Kept live sol s₀ s)
include h

theorem productBounds_spec (hZ : Z.Stands live sol zv) :
    ∃ p, productBounds s Z = .ok p ∧ p.1 ≤ zv ∧ zv ≤ p.2.1 ∧ (p.2.2 = false → zv ≠ 0) := by
  cases Z with
  | int c =>
    obtain rfl : c = zv := hZ
    refine ⟨_, rfl, le_refl _, le_refl _, fun hne => ?_⟩
    simp only [Bool.not_eq_false', decide_eq_true_eq] at hne
    omega
  | dvar z =>
    obtain ⟨hlive, rfl⟩ := hZ
    have hkz := h.keeps z hlive
    refine ⟨_, by simp only [productBounds, dmTrue_eq hkz.shape, bind, Except.bind]; rfl, hkz.first_le, hkz.le_last,
      fun hne h0 => ?_⟩
    rw [decide_eq_false_iff_not, ← h0] at hne
    exact hne hkz.mem

theorem positiveFactor_ends (hx : live x) (hy : live y) (hpos : 0 < sol x * sol y) :
    Exit.Ends (positiveFactor s x y) (Kept live sol s₀) (Kept live sol s₀) := by
  unfold positiveFactor
  split_ifs with hfirst
  · have hx0 := (h.keeps x hx).first_le
    have hy0 : 0 < sol y := pos_of_mul_pos_right hpos (by omega)
    exact regionOrReturn_ends h hy hy0 (h.keeps y hy).le_last
  · exact .ok h

theorem nonzeroFactor_ends (hx : live x) (hne : sol x ≠ 0) :
    Exit.Ends (nonzeroFactor fdRegionLow fdRegionUp s x) (Kept live sol s₀) (Kept live sol s₀) := by
  unfold nonzeroFactor
  split_ifs
  · obtain ⟨d', hd', hk, -⟩ := (h.keeps x hx).setFalseAux hne
    refine .bind (.call ⟨_, ?_, h.update hx hk⟩) fun _ hs => returnIfInt_ends hs
    simp only [setFalseIgnored, hd']
  · exact .ok h

end

theorem multiplySigns_ends {includes0 : Bool} (h : Kept live sol s₀ s) (hx : live x) (hy : live y)
    (hmin : minZ ≤ sol x * sol y) (h0 : includes0 = false → sol x * sol y ≠ 0) :
    Exit.Ends (multiplySigns fdRegionLow fdRegionUp s x y minZ includes0) (Kept live sol s₀) (Kept live sol s₀) := by
  unfold multiplySigns
  split_ifs with hpos hinc
  · have hlt : 0 < sol x * sol y := by omega
    exact .bind (positiveFactor_ends h hx hy hlt) fun _ hs => positiveFactor_ends hs hy hx (mul_comm (sol x) _ ▸ hlt)
  · have hne := h0 hinc
    exact .bind (nonzeroFactor_ends h hx (left_ne_zero_of_mul hne)) fun _ hs =>
      nonzeroFactor_ends hs hy (right_ne_zero_of_mul hne)
  · exact .ok h

/-- What the stages know of `Z`: the store is kept, `Z` is what it was or has become an integer, and its value lies
between its bounds. -/
structure ProductIn (live : ℕ → Prop) (sol : ℕ → ℤ) (s₀ : Store) (Z : FdTerm) (zv : ℤ) (p : Store × FdTerm × ℤ × ℤ) :
    Prop where
  kept : Kept live sol s₀ p.1
  stands : p.2.1.Stands live sol zv
  same : ∀ z, p.2.1 = .dvar z → Z = .dvar z
  low : p.2.2.1 ≤ zv
  up : zv ≤ p.2.2.2

theorem narrowProduct_spec {lowZ upZ : ℤ} (hk : Kept live sol s₀ s) (hZ : Z.Stands live sol zv)
    (hz : minZ ≤ zv ∧ zv ≤ maxZ) (hlow : lowZ ≤ zv) (hup : zv ≤ upZ) :
    ∃ p, narrowProduct s Z minZ maxZ lowZ upZ = .ok p ∧ ProductIn live sol s₀ Z zv p := by
  cases Z with
  | int c =>
    obtain rfl : c = zv := hZ
    refine ⟨(s, .int c, minZ, maxZ), ?_, hk, rfl, fun _ => id, hz.1, hz.2⟩
    rw [narrowProduct, if_neg]
    omega
  | dvar z =>
    obtain ⟨hlive, rfl⟩ := hZ
    obtain ⟨s', hs', hk'⟩ := hk.updateM (g := fun d => domainRegionNoint d lowZ upZ) hlive
      ((hk.keeps z hlive).regionNoint hlow hup)
    have hkz := hk'.keeps z hlive
    simp only [narrowProduct, hs', bind, Except.bind, deref]
    cases hvar : (s' z).var with
    | int c => exact ⟨_, rfl, hk', hkz.bound c hvar, fun _ hd => by simp at hd, (hkz.bound c hvar).le, (hkz.bound c hvar).ge⟩
    | susp => exact ⟨_, rfl, hk', ⟨hlive, rfl⟩, fun _ => id, hkz.first_le, hkz.le_last⟩
    | ref p => exact ⟨_, rfl, hk', ⟨hlive, rfl⟩, fun _ => id, hkz.first_le, hkz.le_last⟩

section
variable (h : Kept live sol s₀ s)
include h

theorem multiplyProduct_spec (hZ : Z.Stands live sol zv) (hz : minZ ≤ zv ∧ zv ≤ maxZ)
    (hmul : sol x * sol y = zv) (hx : minX ≤ sol x ∧ sol x ≤ maxX) (hy : minY ≤ sol y ∧ sol y ≤ maxY) :
    ∃ p, multiplyProduct s Z minX maxX minY maxY minZ maxZ = .ok p ∧ ProductIn live sol s₀ Z zv p := by
  unfold multiplyProduct
  split_ifs
  · have hrange := productRange_mem hx hy
    rw [hmul] at hrange
    exact narrowProduct_spec h hZ hz hrange.1 hrange.2
  · exact ⟨_, rfl, h, hZ, fun _ => id, hz.1, hz.2⟩

theorem multiplyPositive_ends (hx : live x) (hy : live y)
    (hbx : minX ≤ sol x ∧ sol x ≤ maxX) (hby : minY ≤ sol y ∧ sol y ≤ maxY)
    (hz : minZ ≤ sol x * sol y ∧ sol x * sol y ≤ maxZ) :
    Exit.Ends (multiplyPositive s x y minX maxX minY maxY minZ maxZ) (Kept live sol s₀)
      (fun p => Kept live sol s₀ p.1 ∧ sol x ≤ p.2.1 ∧ sol y ≤ p.2.2) := by
  unfold multiplyPositive
  split_ifs with hpos
  · have hmul : 0 < sol x * sol y := by omega
    have hx0 : 0 < sol x := pos_of_mul_pos_left hmul (by omega)
    have hy0 : 0 < sol y := pos_of_mul_pos_right hmul (by omega)
    have hxz : sol x ≤ sol x * sol y := le_mul_of_one_le_right hx0.le hy0
    have hyz : sol y ≤ sol x * sol y := le_mul_of_one_le_left hy0.le hx0
    refine .bind (regionOrReturn_ends h hx hbx.1 (by omega)) fun s' hs' =>
      .bind (regionOrReturn_ends hs' hy hby.1 (by omega)) fun s'' hs'' => .ok ⟨hs'', ?_, ?_⟩
    · exact (hs'.keeps x hx).le_last
    · exact (hs''.keeps y hy).le_last
  · exact .ok ⟨h, hbx.2, hby.2⟩

theorem divideFactor_ends (hy : live y) (hz : minZ ≤ sol x * sol y ∧ sol x * sol y ≤ maxZ)
    (hx : minX ≤ sol x ∧ sol x ≤ maxX) :
    Exit.Ends (divideFactor s y minZ maxZ minX maxX) (Kept live sol s₀) (Kept live sol s₀) := by
  unfold divideFactor
  split_ifs with hone
  · have hrange := quotientRange_mem hx hz hone rfl
    exact regionOrReturn_ends h hy hrange.1 hrange.2
  · exact .ok h

end

theorem dividedBounds_mem (minX maxX : ℤ) (h : Kept live sol s₀ s) (hy : live y) (hby : minY ≤ sol y ∧ sol y ≤ maxY) :
    (dividedBounds s y minX maxX minY maxY).1 ≤ sol y ∧ sol y ≤ (dividedBounds s y minX maxX minY maxY).2 := by
  unfold dividedBounds
  split_ifs
  · exact ⟨(h.keeps y hy).first_le, (h.keeps y hy).le_last⟩
  · exact hby

theorem filterFactor_ends {rangeX : ℤ} (h : Kept live sol s₀ s) (hx : live x) (hy : live y)
    (hZ : Z.Stands live sol zv) (hmul : sol x * sol y = zv) (hword : bplong zv = zv) :
    Exit.Ends (filterFactor fdRegionLow fdRegionUp s x y Z rangeX) (Kept live sol s₀) (Kept live sol s₀) := by
  cases Z with
  | int c =>
    obtain rfl : c = zv := hZ
    simp only [filterFactor]
    split_ifs
    · exact .bind (.call (excludeUnsupportedYConstrXyEqC_kept h hx hy hmul hword)) fun _ hs => returnIfInt_ends hs
    · exact .ok h
  | dvar z =>
    obtain ⟨hz, rfl⟩ := hZ
    simp only [filterFactor]
    split_ifs
    · exact .bind (.call (excludeUnsupportedYConstrXyEqZ_kept h hx hy hz hmul hword)) fun _ hs => returnIfInt_ends hs
    · exact .ok h

theorem multiplyBounds_ends (h : Kept live sol s₀ s) (hx : live x) (hy : live y) (hZ : Z.Stands live sol zv)
    (hmul : sol x * sol y = zv) (hword : bplong zv = zv) :
    Exit.Ends (multiplyBounds fdRegionLow fdRegionUp s x y Z) (Kept live sol s₀)
      (fun p => Kept live sol s₀ p.1 ∧ p.2.1.Stands live sol zv ∧ ∀ z, p.2.1 = .dvar z → Z = .dvar z) := by
  have hmul' : sol y * sol x = zv := by rw [mul_comm, hmul]
  refine .bind (.call (productBounds_spec h hZ)) fun ⟨minZ, maxZ, includes0⟩ ⟨hl, hu, h0⟩ =>
    .bind (multiplySigns_ends h hx hy (hmul ▸ hl) (hmul ▸ h0)) fun s₁ h₁ => ?_
  have hbx : (s₁ x).first ≤ sol x ∧ sol x ≤ (s₁ x).last := ⟨(h₁.keeps x hx).first_le, (h₁.keeps x hx).le_last⟩
  have hby : (s₁ y).first ≤ sol y ∧ sol y ≤ (s₁ y).last := ⟨(h₁.keeps y hy).first_le, (h₁.keeps y hy).le_last⟩
  refine .bind (.call (multiplyProduct_spec h₁ hZ ⟨hl, hu⟩ hmul hbx hby)) fun ⟨s₂, Z₂, minZ₂, maxZ₂⟩ h₂ => ?_
  obtain ⟨hk₂, hZ₂, hsame, hl₂, hu₂⟩ := h₂
  simp only at hk₂ hZ₂ hsame hl₂ hu₂ ⊢
  split_ifs
  · exact .ret hk₂
  refine .bind (multiplyPositive_ends hk₂ hx hy hbx hby (hmul ▸ ⟨hl₂, hu₂⟩)) fun ⟨s₃, maxX₃, maxY₃⟩ ⟨h₃, hmx, hmy⟩ =>
    .bind (divideFactor_ends h₃ hy (hmul ▸ ⟨hl₂, hu₂⟩) ⟨hbx.1, hmx⟩) fun s₄ h₄ => ?_
  have hby₄ := dividedBounds_mem (s₁ x).first maxX₃ h₄ hy ⟨hby.1, hmy⟩
  exact .bind (divideFactor_ends h₄ hx (hmul' ▸ ⟨hl₂, hu₂⟩) hby₄) fun s₅ h₅ =>
    .bind (filterFactor_ends h₅ hx hy hZ₂ hmul hword) fun s₆ h₆ =>
      .bind (filterFactor_ends h₆ hy hx hZ₂ hmul' hword) fun s₇ h₇ => .ok ⟨h₇, hZ₂, hsame⟩

/-- The loop over `Z` on domains with a stray scan: the factor it scans is `Z`. -/
def ProductStray (fdRegionLow fdRegionUp : ℤ) (x y : ℕ) : Store × FdTerm × ℤ × ℤ → Prop
  | (s, .dvar z, minZ, maxZ) =>
    isSmallDomain2 fdRegionLow fdRegionUp minZ maxZ = true ∧ (isBvDomain (s x) || isBvDomain (s y)) = true ∧ x ≠ y ∧
      if (s x).size > (s y).size then z = y ∧ StrayScan (s y) (s x) else z = x ∧ StrayScan (s x) (s y)
  | (_, .int _, _, _) => False

section
variable {p : Store × FdTerm × ℤ × ℤ} (h : Kept live sol s₀ p.1) (hx : live x) (hy : live y)
include h hx hy

theorem filterProduct_kept (hZ : p.2.1.Stands live sol zv) (hmul : sol x * sol y = zv)
    (hstray : ¬ ProductStray fdRegionLow fdRegionUp x y p) :
    ∃ s', filterProduct fdRegionLow fdRegionUp x y p = .ok s' ∧ Kept live sol s₀ s' := by
  obtain ⟨s, Z, minZ, maxZ⟩ := p
  cases Z with
  | int c => exact ⟨s, rfl, h⟩
  | dvar z =>
    obtain ⟨hz, rfl⟩ := hZ
    simp only [filterProduct, excludeUnsupportedZConstrXyEqZ]
    split_ifs with hguard hsize
    · refine excludeProducts_kept h hy hx hz (by rw [mul_comm, hmul]) fun hs => hstray ?_
      rw [Bool.and_eq_true] at hguard
      exact ⟨hguard.1, hguard.2, hs.2.1.symm, by rw [if_pos hsize]; exact ⟨hs.1, hs.2.2⟩⟩
    · refine excludeProducts_kept h hx hy hz hmul fun hs => hstray ?_
      rw [Bool.and_eq_true] at hguard
      exact ⟨hguard.1, hguard.2, hs.2.1, by rw [if_neg hsize]; exact ⟨hs.1, hs.2.2⟩⟩
    · exact ⟨s, rfl, h⟩

theorem filterProduct_oob
    (hstray : ProductStray fdRegionLow fdRegionUp x y p) : filterProduct fdRegionLow fdRegionUp x y p = .error .oob := by
  obtain ⟨s, Z, minZ, maxZ⟩ := p
  cases Z with
  | int c => exact hstray.elim
  | dvar z =>
    obtain ⟨hsmall, hbv, hxy, hs⟩ := hstray
    have hkx : Keeps (s x) (sol x) := h.keeps x hx
    have hky : Keeps (s y) (sol y) := h.keeps y hy
    simp only [filterProduct, excludeUnsupportedZConstrXyEqZ, hsmall, hbv, Bool.and_self, if_true]
    split_ifs at hs ⊢
    · rw [hs.1]
      exact excludeProducts_oob hxy.symm hky.shape hky.enough hkx.shape hs.2
    · rw [hs.1]
      exact excludeProducts_oob hxy hkx.shape hkx.enough hky.shape hs.2

end

end

end

/-! ## A call -/

/-- A call on two variable factors that reaches its last loop on domains with a stray scan. -/
def MultiplyStray (fdRegionLow fdRegionUp : ℤ) (s : Store) (X Y Z : FdTerm) : Prop :=
  ∃ x y p, deref s X = .dvar x ∧ deref s Y = .dvar y ∧
    multiplyBounds fdRegionLow fdRegionUp s x y (deref s Z) = .ok p ∧ ProductStray fdRegionLow fdRegionUp x y p

def multiplyLive (s : Store) (X Y Z : FdTerm) (r : ℕ) : Prop :=
  deref s X = .dvar r ∨ deref s Y = .dvar r ∨ deref s Z = .dvar r

section
variable {fdRegionLow fdRegionUp : ℤ} {s : Store} {X Y Z t : FdTerm} {sol : ℕ → ℤ} {x y r : ℕ}

section
variable (h : t.Entry s) (hs : t.Holds s sol)
include h hs

theorem FdTerm.Entry.val_deref : (Picat.deref s t).val sol = t.val sol := by
  rcases h.deref hs with ht | ⟨r, ht, hv, -⟩
  · rw [ht]
    rfl
  · rw [ht]
    exact hv

theorem FdTerm.Entry.keeps (hr : Picat.deref s t = .dvar r) : Keeps (s r) (sol r) := by
  rcases h.deref hs with ht | ⟨q, ht, -, hk⟩
  · rw [ht] at hr
    contradiction
  · obtain rfl : q = r := FdTerm.dvar.inj (ht.symm.trans hr)
    exact hk

theorem FdTerm.Entry.bplong_val : bplong (t.val sol) = t.val sol := by
  have hword := h.word hs
  simp only [bpIn1WIntRange, bpMinint1W, bpMaxint1W] at hword
  exact bplong_eq (by omega) (by omega)

end

variable (hX : X.Entry s) (hY : Y.Entry s) (hZ : Z.Entry s) (hsol : MultiplySolution s X Y Z sol)
include hX hY hZ hsol

theorem MultiplySolution.kept : Kept (multiplyLive s X Y Z) sol s s := by
  refine ⟨fun r hr => ?_, fun _ _ => rfl⟩
  rcases hr with hr | hr | hr
  · exact hX.keeps hsol.left hr
  · exact hY.keeps hsol.right hr
  · exact hZ.keeps hsol.product hr

theorem MultiplySolution.bounds_ends (fdRegionLow fdRegionUp : ℤ) (hx : deref s X = .dvar x) (hy : deref s Y = .dvar y) :
    Exit.Ends (multiplyBounds fdRegionLow fdRegionUp s x y (deref s Z)) (Kept (multiplyLive s X Y Z) sol s)
      (fun p => Kept (multiplyLive s X Y Z) sol s p.1 ∧ p.2.1.Stands (multiplyLive s X Y Z) sol (Z.val sol) ∧
        ∀ z, p.2.1 = .dvar z → deref s Z = .dvar z) := by
  have hvx : sol x = X.val sol := by rw [← hX.val_deref hsol.left, hx]; rfl
  have hvy : sol y = Y.val sol := by rw [← hY.val_deref hsol.right, hy]; rfl
  refine multiplyBounds_ends (hsol.kept hX hY hZ) (.inl hx) (.inr (.inl hy)) ?_ (by rw [hvx, hvy, hsol.eq])
    (hZ.bplong_val hsol.product)
  rcases hZ.deref hsol.product with hz | ⟨z, hz, hv, -⟩
  · rw [hz]
    rfl
  · rw [hz]
    exact ⟨.inr (.inr hz), hv⟩

theorem bClpfdMultiplyIntCcc_kept (hstray : ¬ MultiplyStray fdRegionLow fdRegionUp s X Y Z) :
    ∃ s', bClpfdMultiplyIntCcc fdRegionLow fdRegionUp s X Y Z = .ok s' ∧ Kept (multiplyLive s X Y Z) sol s s' := by
  have hkept := hsol.kept hX hY hZ
  have hvX := hX.val_deref hsol.left
  have hvY := hY.val_deref hsol.right
  have hvZ := hZ.val_deref hsol.product
  unfold bClpfdMultiplyIntCcc
  cases hdx : deref s X with
  | int a =>
    refine multiplyByInt_kept hkept (fun y hy => .inr (.inl hy)) (fun z hz => .inr (.inr hz)) ?_
    rw [hdx] at hvX
    rw [hvY, hvZ, ← hsol.eq, ← hvX]
    rfl
  | dvar x =>
    rw [hdx] at hvX
    cases hdy : deref s Y with
    | int a =>
      refine multiplyByInt_kept hkept (fun q hq => .inl (hdx.trans hq)) (fun z hz => .inr (.inr hz)) ?_
      rw [hdy] at hvY
      rw [hvZ, ← hsol.eq, ← hvX, ← hvY, mul_comm]
      rfl
    | dvar y =>
      rw [hdy] at hvY
      have hmul : sol x * sol y = Z.val sol := by rw [← hsol.eq, ← hvX, ← hvY]; rfl
      have hends := hsol.bounds_ends hX hY hZ fdRegionLow fdRegionUp hdx hdy
      apply Exit.Ends.run
      cases hp : multiplyBounds fdRegionLow fdRegionUp s x y (deref s Z) with
      | error e =>
        rw [hp] at hends
        rcases e with e | s'
        · exact hends
        · exact hends
      | ok p =>
        rw [hp] at hends
        exact .call (filterProduct_kept hends.1 (.inl hdx) (.inr (.inl hdy)) hends.2.1 hmul fun hs =>
          hstray ⟨x, y, p, hdx, hdy, hp, hs⟩)

theorem bClpfdMultiplyIntCcc_oob (hstray : MultiplyStray fdRegionLow fdRegionUp s X Y Z) :
    bClpfdMultiplyIntCcc fdRegionLow fdRegionUp s X Y Z = .error .oob := by
  obtain ⟨x, y, p, hdx, hdy, hp, hs⟩ := hstray
  have hends := hsol.bounds_ends hX hY hZ fdRegionLow fdRegionUp hdx hdy
  rw [hp] at hends
  have hoob := filterProduct_oob hends.1 (.inl hdx) (.inr (.inl hdy)) hs
  simp only [bClpfdMultiplyIntCcc, hdx, hdy, hp, bind, Except.bind, hoob, Exit.call, Exit.run]

end

/-- A factor that is an interval, and one that is a vector with holes. -/
def strayStore : Store := fun r =>
  if r = 0 then auxCreateDomainVar (-2) 3
  else { var := .susp, type := .bv ⟨0, 63, [0x155401#64]⟩, first := 0, last := 20, size := 7, outerDomCs := false }

end Picat
