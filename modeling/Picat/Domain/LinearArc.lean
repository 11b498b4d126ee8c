import Picat.Domain.Multiply

/-!
# The absolute difference of two variables

`b_ABS_DIFF_CON_ccc` for `abs(X-Y) = N`: the values of `X` without a support in `Y` go, and then, if `X` is still free,
those of `Y` without one in `X`. It looks for `x - N` and `x + N`, whatever the sign of `N`.

* `bAbsDiffConCcc_spec` : what a call leaves, and when it fails.
-/

namespace Picat

open BitScan Function Finset

/-! ## The propagator -/

/-- `dm_true(dv_ptr_y, elm-N) || dm_true(dv_ptr_y, elm+N)` -/
def absDiffSupported (n : ℤ) (y : ℕ) (s : Store) (elm : ℤ) : Except Stop Bool := do
  if ← dmTrue (s y) (elm - n) then return true else dmTrue (s y) (elm + n)

/-- The loop over the integers from `elm` on, of which there are `k`. -/
def excludeEach (supported : Store → ℤ → Except Stop Bool) (r : ℕ) : ℕ → Store → ℤ → Except Stop Store
  | 0, s, _ => .ok s
  | k + 1, s, elm => do
      let (s, _) ← excludeUnsupported domainSetFalseAux supported r s elm
      excludeEach supported r k s (elm + 1)

/-- `for (elm = min; elm <= max; elm++)`, for the bounds that `r` has at first. -/
def excludeBetween (supported : Store → ℤ → Except Stop Bool) (r : ℕ) (s : Store) : Except Stop Store :=
  excludeEach supported r ((s r).last + 1 - (s r).first).toNat s (s r).first

def bAbsDiffConCcc (s : Store) (X Y : FdTerm) (N : ℤ) : Except Stop Store :=
  match deref s X, deref s Y with
  | .dvar x, .dvar y => do
      let s ← excludeBetween (absDiffSupported N y) x s
      if (s x).var ≠ .susp then return s
      else excludeBetween (absDiffSupported N x) y s
  | _, _ => .ok s

section
variable {X : Finset ℤ} {supp : ℤ → Prop} {s₀ : Store} {r : ℕ} {supported : Store → ℤ → Except Stop Bool}

/-- The pass leaves the supported values, and fails when there are none. -/
def LeavesSupported (X : Finset ℤ) (supp : ℤ → Prop) [DecidablePred supp] (s₀ : Store) (r : ℕ)
    (result : Except Stop Store) : Prop :=
  (X.filter supp = ∅ ∧ result = .error .fail) ∨
    ∃ d, (X.filter supp).Nonempty ∧ result = .ok (update s₀ r d) ∧ d.Inv ∧ d.dom = X.filter supp

theorem excludeEach_spec [DecidablePred supp] (htest : Tests X supp s₀ r supported) (k : ℕ) (d : Dvar) (e : ℤ)
    (h : Passed X supp d e) (hX : ∀ a ∈ X, a < e + k) :
    LeavesSupported X supp s₀ r (excludeEach supported r k (update s₀ r d) e) := by
  induction k generalizing d e with
  | zero =>
    have hdom := h.done (by simpa using hX)
    refine .inr ⟨d, ?_, rfl, h.inv, hdom⟩
    rw [← hdom]
    exact h.inv.dom_nonempty
  | succ k ih =>
    have hX' : ∀ a ∈ X, a < e + 1 + k := fun a ha => by have := hX a ha; push_cast at this; omega
    obtain ⟨b, hb, hsupp⟩ := htest d e h
    cases b with
    | true =>
      rw [excludeEach, excludeUnsupported_of_true hb]
      exact ih d (e + 1) (h.keep fun he => (hsupp he).1 rfl) hX'
    | false =>
      rcases h.remove (fun he hs => Bool.false_ne_true ((hsupp he).2 hs)) with ⟨hfail, hnone⟩ | ⟨d', hd', h', -⟩
      · apply Or.inl
        refine ⟨filter_eq_empty_iff.2 hnone, ?_⟩
        rw [excludeEach, excludeUnsupported_error hb (by rwa [update_self])]
        rfl
      · rw [excludeEach, excludeUnsupported_of_false hb (by rwa [update_self]), update_idem]
        exact ih d' (e + 1) h' hX'

theorem excludeBetween_spec [DecidablePred supp] (h : (s₀ r).Inv) (hv : (s₀ r).var = .susp)
    (htest : Tests (s₀ r).elems supp s₀ r supported) :
    LeavesSupported (s₀ r).elems supp s₀ r (excludeBetween supported r s₀) := by
  have hle := h.le
  have hrun := excludeEach_spec htest ((s₀ r).last + 1 - (s₀ r).first).toNat (s₀ r) (s₀ r).first
    (.start h hv (le_refl _)) fun a ha => by
      have hlast := (Dvar.mem_elems.1 ha).1.2
      omega
  rwa [update_eq_self] at hrun

end

/-! ## The two passes -/

section

/-- `a` has a value at the distance `|n|` in `D`. -/
def HasDiff (n : ℤ) (D : Finset ℤ) (a : ℤ) : Prop := ∃ b ∈ D, |a - b| = |n|

theorem hasDiff_iff {n a : ℤ} {D : Finset ℤ} : HasDiff n D a ↔ a - n ∈ D ∨ a + n ∈ D := by
  constructor
  · intro hp
    obtain ⟨b, hb, hdiff⟩ := hp
    rcases abs_eq_abs.1 hdiff with h | h
    · rw [show a - n = b by omega]
      exact .inl hb
    · rw [show a + n = b by omega]
      exact .inr hb
  · rintro (h | h)
    · exact ⟨a - n, h, by rw [show a - (a - n) = n by omega]⟩
    · exact ⟨a + n, h, by rw [show a - (a + n) = -n by omega, abs_neg]⟩

instance (n : ℤ) (D : Finset ℤ) : DecidablePred (HasDiff n D) := fun _ => decidable_of_iff _ hasDiff_iff.symm

theorem hasDiff_filter_iff {n b : ℤ} {D E : Finset ℤ} (hb : b ∈ E) :
    HasDiff n (D.filter (HasDiff n E)) b ↔ HasDiff n D b := by
  constructor
  · intro h
    obtain ⟨a, ha, hdiff⟩ := h
    exact ⟨a, (mem_filter.1 ha).1, hdiff⟩
  · intro h
    obtain ⟨a, ha, hdiff⟩ := h
    exact ⟨a, mem_filter.2 ⟨ha, b, hb, by rwa [abs_sub_comm]⟩, hdiff⟩

theorem absDiffSupported_eq {s : Store} {y : ℕ} (h : (s y).Shape) (n e : ℤ) :
    absDiffSupported n y s e = .ok (decide (HasDiff n (s y).elems e)) := by
  simp only [absDiffSupported, dmTrue_eq h, bind, Except.bind, pure, Except.pure]
  by_cases hlow : e - n ∈ (s y).elems
  · simp [hlow, hasDiff_iff]
  · simp [hlow, hasDiff_iff]

/-- The test decides the support in the values that `y` has at first, also where `y` is the variable that shrinks. -/
theorem absDiffSupported_tests {s : Store} {x y : ℕ} (hy : (s y).Inv) (n : ℤ) :
    Tests (s x).elems (HasDiff n (s y).elems) s x (absDiffSupported n y) := by
  intro d e h
  by_cases hyx : y = x
  · subst hyx
    have hd : (update s y d y).Shape := by
      rw [update_self]
      exact h.inv.shape
    refine ⟨_, absDiffSupported_eq hd n e, fun he => ?_⟩
    rw [update_self, decide_eq_true_eq]
    constructor
    · intro hp
      obtain ⟨b, hb, hdiff⟩ := hp
      exact ⟨b, h.elems_sub hb, hdiff⟩
    · intro hp
      obtain ⟨b, hb, hdiff⟩ := hp
      -- `e` is a support of `b`, which therefore is still there
      have hsupp : HasDiff n (s y).elems b := ⟨e, ((h.mem_dom e).1 he).1, by rw [abs_sub_comm]; exact hdiff⟩
      exact ⟨b, h.sub ((h.mem_dom b).2 ⟨hb, fun _ => hsupp⟩), hdiff⟩
  · have hs : update s x d y = s y := update_of_ne hyx _ _
    refine ⟨_, absDiffSupported_eq (by rw [hs]; exact hy.shape) n e, fun _ => ?_⟩
    rw [hs, decide_eq_true_eq]

/-- What a call that goes through leaves of the variables. -/
structure Revised (N : ℤ) (s s' : Store) (x y : ℕ) : Prop where
  inv_x : (s' x).Inv
  inv_y : (s' y).Inv
  dom_x : (s' x).dom = (s x).dom.filter (HasDiff N (s y).dom)
  dom_y : (s' y).dom = if (s' x).var = .susp then (s y).dom.filter (HasDiff N (s x).dom) else (s y).dom
  others : ∀ q, q ≠ x → q ≠ y → s' q = s q

variable {s : Store} {x y : ℕ}

/-- A variable against itself is not bound by the first pass: its supports come in pairs. -/
theorem susp_of_self {N : ℤ} {d : Dvar} (hx : (s x).Inv) (hvx : (s x).var = .susp) (hd : d.Inv)
    (hdom : d.dom = (s x).elems.filter (HasDiff N (s x).elems)) : d.var = .susp := by
  cases hv : d.var with
  | susp => rfl
  | ref p => exact absurd hv (hd.not_ref p)
  | int v =>
    rw [Dvar.dom_int hv] at hdom
    have hmem : ∀ a, a ∈ (s x).elems → HasDiff N (s x).elems a → a = v := fun a ha hsupp =>
      mem_singleton.1 (hdom ▸ mem_filter.2 ⟨ha, hsupp⟩)
    have hself : v ∈ (s x).elems ∧ HasDiff N (s x).elems v :=
      mem_filter.1 (hdom ▸ mem_singleton_self v)
    obtain ⟨hvX, b, hb, hdiff⟩ := hself
    obtain rfl : b = v := hmem b hb ⟨v, hvX, by rwa [abs_sub_comm]⟩
    have hN : N = 0 := by simpa using hdiff.symm
    have hall : ∀ a ∈ (s x).elems, a = b := fun a ha => hmem a ha ⟨a, ha, by simp [hN]⟩
    have hlt := hx.susp hvx
    have hf := hall _ hx.shape.first_mem_elems
    have hl := hall _ hx.shape.last_mem_elems
    omega

/-- The first pass fails, and with it the call, exactly if no value of `x` is at the distance; else both passes leave just
the supported values, the second one unless `x` has become an integer. -/
theorem bAbsDiffConCcc_spec (N : ℤ) (hx : (s x).Inv) (hy : (s y).Inv) (hvx : (s x).var = .susp)
    (hvy : (s y).var = .susp) :
    ((s x).dom.filter (HasDiff N (s y).dom) = ∅ ∧ bAbsDiffConCcc s (.dvar x) (.dvar y) N = .error .fail) ∨
      ∃ s', ((s x).dom.filter (HasDiff N (s y).dom)).Nonempty ∧
        bAbsDiffConCcc s (.dvar x) (.dvar y) N = .ok s' ∧ Revised N s s' x y := by
  have hderef : deref s (.dvar x) = .dvar x ∧ deref s (.dvar y) = .dvar y := by
    constructor
    · simp only [deref, hvx]
    · simp only [deref, hvy]
  simp only [bAbsDiffConCcc, hderef.1, hderef.2, Dvar.dom_susp hvx, Dvar.dom_susp hvy]
  rcases excludeBetween_spec hx hvx (absDiffSupported_tests hy N) with ⟨hnone, hfail⟩ | ⟨d, hsome, hrun, hinv, hdom⟩
  · exact .inl ⟨hnone, by simp only [hfail, bind, Except.bind]⟩
  apply Or.inr
  simp only [hrun, bind, Except.bind, update_self]
  by_cases hd : d.var = .susp
  · rw [if_neg (not_not.2 hd)]
    -- the second pass starts from what the first one has left
    have hy' : (update s x d y).Inv ∧ (update s x d y).var = .susp ∧
        (update s x d y).elems.filter (HasDiff N d.dom) = (s y).elems.filter (HasDiff N (s x).elems) := by
      by_cases hyx : y = x
      · subst hyx
        rw [update_self, ← Dvar.dom_susp hd, hdom, filter_filter]
        refine ⟨hinv, hd, filter_congr fun a ha => ?_⟩
        rw [hasDiff_filter_iff ha, and_self]
      · rw [update_of_ne hyx, hdom]
        exact ⟨hy, hvy, filter_congr fun a ha => hasDiff_filter_iff ha⟩
    obtain ⟨hinvy, hvy', hset⟩ := hy'
    have hinvx : (update s x d x).Inv := by rwa [update_self]
    have hpass := excludeBetween_spec hinvy hvy' (absDiffSupported_tests hinvx N)
    rw [update_self, ← Dvar.dom_susp hd] at hpass
    simp only [LeavesSupported, hset] at hpass
    rcases hpass with ⟨hempty, -⟩ | ⟨d₂, -, hrun₂, hinv₂, hdom₂⟩
    · -- a supported value has its support
      obtain ⟨a, ha⟩ := hsome
      obtain ⟨ha, b, hb, hdiff⟩ := mem_filter.1 ha
      exact absurd hempty (nonempty_iff_ne_empty.1 ⟨b, mem_filter.2 ⟨hb, a, ha, by rwa [abs_sub_comm]⟩⟩)
    refine ⟨_, hsome, hrun₂, ?_⟩
    by_cases hyx : y = x
    · subst hyx
      have hd₂ : d₂.var = .susp := susp_of_self hx hvx hinv₂ hdom₂
      refine ⟨by rwa [update_self], by rwa [update_self], ?_, ?_, fun q hq _ => ?_⟩
      · rw [update_self, Dvar.dom_susp hvx, hdom₂]
      · rw [update_self, if_pos hd₂, Dvar.dom_susp hvx, hdom₂]
      · rw [update_of_ne hq, update_of_ne hq]
    · have hx' : update (update s x d) y d₂ x = d := by
        rw [update_of_ne (Ne.symm hyx), update_self]
      refine ⟨by rwa [hx'], by rwa [update_self], ?_, ?_, fun q hqx hqy => ?_⟩
      · rw [hx', hdom, Dvar.dom_susp hvx, Dvar.dom_susp hvy]
      · rw [hx', if_pos hd, update_self, hdom₂, Dvar.dom_susp hvx, Dvar.dom_susp hvy]
      · rw [update_of_ne hqy, update_of_ne hqx]
  · rw [if_pos hd]
    have hyx : y ≠ x := by
      rintro rfl
      exact hd (susp_of_self hx hvx hinv hdom)
    have hy' : update s x d y = s y := update_of_ne hyx _ _
    refine ⟨_, hsome, rfl, by rwa [update_self], by rwa [hy'], ?_, ?_, fun q hq _ => ?_⟩
    · rw [update_self, hdom, Dvar.dom_susp hvx, Dvar.dom_susp hvy]
    · rw [update_self, if_neg hd, hy']
    · exact update_of_ne hq _ _

def pairStore : Store := fun _ => auxCreateDomainVar 0 1

theorem bAbsDiffConCcc_spec_one : ((pairStore 0).dom.filter (HasDiff 1 (pairStore 1).dom) = ∅ ∧
        bAbsDiffConCcc pairStore (.dvar 0) (.dvar 1) 1 = .error .fail) ∨
      ∃ s', ((pairStore 0).dom.filter (HasDiff 1 (pairStore 1).dom)).Nonempty ∧
        bAbsDiffConCcc pairStore (.dvar 0) (.dvar 1) 1 = .ok s' ∧ Revised 1 pairStore s' 0 1 :=
  bAbsDiffConCcc_spec 1 (auxCreateDomainVar_inv (by decide)) (auxCreateDomainVar_inv (by decide)) rfl rfl

/-- No two values have a negative distance, but the call goes through as if the distance were 1. -/
theorem bAbsDiffConCcc_negative :
    ¬ ∀ (s : Store) (x y : ℕ) (N : ℤ), (s x).Inv → (s y).Inv → (s x).var = .susp → (s y).var = .susp →
      ((∀ a ∈ (s x).dom, ¬ ∃ b ∈ (s y).dom, |a - b| = N) → bAbsDiffConCcc s (.dvar x) (.dvar y) N = .error .fail) := by
  intro h
  have hfail := h pairStore 0 1 (-1) (auxCreateDomainVar_inv (by decide)) (auxCreateDomainVar_inv (by decide)) rfl rfl
    fun a _ ⟨b, _, hdiff⟩ => by
      have hpos := abs_nonneg (a - b)
      omega
  have hok : (bAbsDiffConCcc pairStore (.dvar 0) (.dvar 1) (-1)).isOk = true := by decide
  rw [hfail] at hok
  cases hok

end

/-! # Arc consistency of binary linear constraints -/

/-! ## The loop -/

/-- `domain_set_false_aux`, whose result is not looked at. -/
def setFalseAnyway (d : Dvar) (elm : ℤ) : Except Stop Dvar :=
  match domainSetFalseAux d elm with
  | .error .fail => .ok d
  | r => r

/-- The loop of the `_aux` routines, for what `r` has left from `currX` on. -/
def arcLoop (supported : Store → ℤ → Except Stop Bool) (r : ℕ) (maxX : ℤ) : ℕ → Store → ℤ → Except Stop Store
  | 0, _, _ => .error .oob
  | fuel + 1, s, currX => do
      let (s, excluded) ← excludeUnsupported setFalseAnyway supported r s currX
      if excluded && (s r).isInt then return s
      else if currX ≥ maxX then return s
      else do
        let currX ← nextElm (s r) currX
        arcLoop supported r maxX fuel s currX

/-- The loop from the first element on, with the last one as it is before. -/
def arcAux (supported : Store → ℤ → Except Stop Bool) (r : ℕ) (s : Store) : Except Stop Store :=
  arcLoop supported r (s r).last (((s r).last - (s r).first).toNat + 1) s (s r).first

/-- The call of an `_aux` routine: only if the other variable is a bit vector, or its coefficient `coef` is not 1. -/
def arcCall (coef : ℤ) (supported : Store → ℤ → Except Stop Bool) (r other : ℕ) (s : Store) : Except Stop Store :=
  if isBvDomain (s other) ∨ coef ≠ 1 then arcAux supported r s else .ok s

/-- Both directions, with the coefficients of the two variables and the tests of their values. -/
def arcConsistent (coefX coefY : ℤ) (testX testY : Store → ℤ → Except Stop Bool) (x y : ℕ) (s : Store) :
    Except Stop Store := do
  let s ← arcCall coefY testX x y s
  if (s x).var ≠ .susp then return s
  else arcCall coefX testY y x s

/-- Two terms that are variables after `DEREF_NONVAR`; else there is nothing to do. -/
def onVariables (s : Store) (X Y : FdTerm) (f : ℕ → ℕ → Store → Except Stop Store) : Except Stop Store :=
  match deref s X, deref s Y with
  | .dvar x, .dvar y => f x y s
  | _, _ => .ok s

/-! ## The propagators -/

/-- The test of `c_VV_EQ_C_CON_aux`. -/
def vvEqCSupported (C : ℤ) (y : ℕ) (s : Store) (currX : ℤ) : Except Stop Bool := dmTrue (s y) (C - currX)

/-- `b_VV_EQ_C_CON_ccc` : `X+Y = C` -/
def bVVEqCConCcc (s : Store) (X Y : FdTerm) (C : ℤ) : Except Stop Store :=
  onVariables s X Y fun x y => arcConsistent 1 1 (vvEqCSupported C y) (vvEqCSupported C x) x y

/-- The test of `c_V_EQ_VC_CON_aux`. -/
def vEqVCSupported (C : ℤ) (y : ℕ) (s : Store) (currX : ℤ) : Except Stop Bool := dmTrue (s y) (currX - C)

/-- `b_V_EQ_VC_CON_ccc` : `X = Y+C` -/
def bVEqVCConCcc (s : Store) (X Y : FdTerm) (C : ℤ) : Except Stop Store :=
  onVariables s X Y fun x y => arcConsistent 1 1 (vEqVCSupported C y) (vEqVCSupported (-C) x) x y

/-- `currY = tmp/B`, and `B*currY != tmp || !dm_true(dv_ptr_y, currY)` turned round. -/
def quotientSupported (tmp B : ℤ) (y : ℕ) (s : Store) : Except Stop Bool :=
  let currY := tmp.tdiv B
  if bplong (B * currY) ≠ tmp then return false else dmTrue (s y) currY

/-- The test of `c_UU_EQ_C_CON_aux`. -/
def uuEqCSupported (A B C : ℤ) (y : ℕ) (s : Store) (currX : ℤ) : Except Stop Bool :=
  quotientSupported (bplong (C - A * currX)) B y s

/-- `c_UU_EQ_C_CON` : `A*X+B*Y = C` -/
def cUUEqCCon (s : Store) (A : ℤ) (X : FdTerm) (B : ℤ) (Y : FdTerm) (C : ℤ) : Except Stop Store :=
  onVariables s X Y fun x y => arcConsistent A B (uuEqCSupported A B C y) (uuEqCSupported B A C x) x y

/-- The test of `c_U_EQ_UC_CON_aux`. -/
def uEqUCSupported (A B C : ℤ) (y : ℕ) (s : Store) (currX : ℤ) : Except Stop Bool :=
  quotientSupported (bplong (A * currX - C)) B y s

/-- `c_U_EQ_UC_CON` : `A*X = B*Y+C` -/
def cUEqUCCon (s : Store) (A : ℤ) (X : FdTerm) (B : ℤ) (Y : FdTerm) (C : ℤ) : Except Stop Store :=
  onVariables s X Y fun x y => arcConsistent A B (uEqUCSupported A B C y) (uEqUCSupported B A (-C) x) x y

/-! ## One pass -/

/-- What a pass leaves of the values `X`, of which `last` is the largest. -/
noncomputable def leftOf (X : Finset ℤ) (last : ℤ) (supp : ℤ → Prop) [DecidablePred supp] : Finset ℤ :=
  if (X.filter supp).Nonempty then X.filter supp else {last}

section
variable {X : Finset ℤ} {supp : ℤ → Prop} {s₀ : Store} {r : ℕ} {supported : Store → ℤ → Except Stop Bool}
  {d : Dvar} {e first last : ℤ}

structure AtArc (X : Finset ℤ) (supp : ℤ → Prop) (first last : ℤ) (d : Dvar) (e : ℤ) : Prop where
  passed : Passed X supp d e
  free : d.var = .susp
  scanned : d.ScannedTo e
  last_eq : d.last = last
  first_le : first ≤ e
  le : e ≤ last

/-- The test decides the support of every value between the bounds, whatever has become of the variable. -/
def Decides (supp : ℤ → Prop) (first last : ℤ) (s₀ : Store) (r : ℕ) (supported : Store → ℤ → Except Stop Bool) : Prop :=
  ∀ d e, first ≤ e → e ≤ last → ∃ b, supported (update s₀ r d) e = .ok b ∧ (b = true ↔ supp e)

theorem Passed.bound [DecidablePred supp] {d' : Dvar} {v : ℤ} (h' : Passed X supp d' (e + 1)) (hv : d'.var = .int v)
    (hX : ∀ a ∈ X, a ≤ last) (hlast : last ∈ X) :
    d'.dom = leftOf X last supp := by
  have hdom : ∀ a, a = v ↔ a ∈ X ∧ (a < e + 1 → supp a) := by
    intro a
    rw [← h'.mem_dom a, Dvar.dom_int hv, mem_singleton]
  have hfilter : ∀ a ∈ X.filter supp, a = v := fun a ha =>
    (hdom a).2 ⟨(mem_filter.1 ha).1, fun _ => (mem_filter.1 ha).2⟩
  have hvX : v ∈ X ∧ (v < e + 1 → supp v) := (hdom v).1 rfl
  rw [Dvar.dom_int hv, leftOf]
  split_ifs with hne
  · obtain ⟨a, ha⟩ := hne
    obtain rfl := hfilter a ha
    exact (eq_singleton_iff_unique_mem.2 ⟨ha, hfilter⟩).symm
  · have hnot : ¬ supp v := fun hs => hne ⟨v, mem_filter.2 ⟨hvX.1, hs⟩⟩
    have hev : e < v := by
      by_contra hle
      exact hnot (hvX.2 (by omega))
    have hvl := hX v hvX.1
    rw [(hdom last).2 ⟨hlast, fun _ => by omega⟩]

theorem AtArc.round {b : Bool} (h : AtArc X supp first last d e)
    (hb : supported (update s₀ r d) e = .ok b) (hsupp : b = true ↔ supp e) :
    ∃ d', excludeUnsupported setFalseAnyway supported r (update s₀ r d) e =
        .ok (update s₀ r d', !b) ∧ Passed X supp d' (e + 1) ∧ (b = true → d' = d) ∧
      (d' = d ∨ Narrowed d (d.elems.erase e) True d') := by
  cases b with
  | true => exact ⟨d, excludeUnsupported_of_true hb, h.passed.keep fun _ => hsupp.1 rfl, fun _ => rfl, .inl rfl⟩
  | false =>
    obtain ⟨d', hd', h', hcase⟩ := h.passed.remove_susp h.free fun hs => Bool.false_ne_true (hsupp.2 hs)
    have hset : setFalseAnyway (update s₀ r d r) e = .ok d' := by
      rw [update_self, setFalseAnyway, hd']
    refine ⟨d', ?_, h', fun hb' => absurd hb' Bool.false_ne_true, hcase⟩
    rw [excludeUnsupported_of_false hb hset, update_idem, Bool.not_false]

theorem arcLoop_spec [DecidablePred supp] (htest : Decides supp first last s₀ r supported) (hX : ∀ a ∈ X, a ≤ last)
    (hlast : last ∈ X) (fuel : ℕ) (d : Dvar) (e : ℤ) (hlt : last - e < fuel) (h : AtArc X supp first last d e) :
    ∃ d', arcLoop supported r last fuel (update s₀ r d) e = .ok (update s₀ r d') ∧ d'.Inv ∧
      d'.dom = leftOf X last supp := by
  induction fuel generalizing d e with
  | zero =>
    have := h.le
    omega
  | succ fuel ih =>
    have hle := h.le
    have hfirst := h.first_le
    obtain ⟨b, hb, hsupp⟩ := htest d e hfirst hle
    obtain ⟨d', hround, h', hsame, hcase⟩ := h.round hb hsupp
    simp only [arcLoop, hround, bind, Except.bind, update_self]
    by_cases hstop : (!b && d'.isInt) = true
    · rw [if_pos hstop]
      rw [Bool.and_eq_true] at hstop
      obtain ⟨v, hv⟩ : ∃ v, d'.var = .int v := by
        cases hv : d'.var with
        | int v => exact ⟨v, rfl⟩
        | susp => simp [Dvar.isInt, hv] at hstop
        | ref p => simp [Dvar.isInt, hv] at hstop
      exact ⟨d', rfl, h'.inv, h'.bound hv hX hlast⟩
    rw [if_neg hstop]
    by_cases hend : e ≥ last
    · rw [if_pos hend]
      have hdom := h'.done fun a ha => by
        have := hX a ha
        omega
      have hne := h'.inv.dom_nonempty
      rw [hdom] at hne
      exact ⟨d', rfl, h'.inv, by rw [leftOf, if_pos hne, hdom]⟩
    rw [if_neg hend]
    have hfree : d'.var = .susp := by
      cases hv : d'.var with
      | susp => rfl
      | ref p => exact absurd hv (h'.inv.not_ref p)
      | int v =>
        cases b with
        | true => exact absurd h.free (by rw [← hsame rfl, hv]; simp)
        | false => simp [Dvar.isInt, hv] at hstop
    have hel : e < d.last := by rw [h.last_eq]; omega
    obtain ⟨hscan, hlast'⟩ := h.passed.inv.shape.scannedTo_round h.scanned hel hcase
    obtain ⟨e', he', hee, hle', -, hp', hs'⟩ := h'.step hscan (by rwa [hlast'])
    rw [hlast', h.last_eq] at hle'
    simp only [he']
    exact ih d' e' (by push_cast at hlt; omega) ⟨hp', hfree, hs', hlast'.trans h.last_eq, by omega, hle'⟩

theorem arcAux_spec [DecidablePred supp] (h : (s₀ r).Inv) (hv : (s₀ r).var = .susp)
    (htest : Decides supp (s₀ r).first (s₀ r).last s₀ r supported) :
    ∃ d, arcAux supported r s₀ = .ok (update s₀ r d) ∧ d.Inv ∧ d.dom = leftOf (s₀ r).dom (s₀ r).last supp := by
  have hle := h.le
  have hX : ∀ a ∈ (s₀ r).elems, a ≤ (s₀ r).last := fun a ha => (Dvar.mem_elems.1 ha).1.2
  have hrun := arcLoop_spec htest hX h.shape.last_mem_elems (((s₀ r).last - (s₀ r).first).toNat + 1) (s₀ r)
    (s₀ r).first (by push_cast; omega)
    ⟨.start h hv (le_refl _), hv, h.shape.scannedTo (by omega), rfl, le_refl _, hle⟩
  rw [update_eq_self] at hrun
  rwa [Dvar.dom_susp hv]

end

/-! ## Both passes -/

/-- The test looks for a partner in what the fields of `z` stand for. -/
def LooksFor (R : ℤ → ℤ → Prop) (first last : ℤ) (z : ℕ) (test : Store → ℤ → Except Stop Bool) : Prop :=
  ∀ s : Store, (s z).Shape → ∀ e, first ≤ e → e ≤ last → ∃ b, test s e = .ok b ∧ (b = true ↔ ∃ w ∈ (s z).elems, R e w)

/-- What a call leaves: of `x` what `y` supports, and of `y`, if `x` is still free, what the rest of `x` supports; both only
if the other variable is a bit vector or its coefficient is not 1. -/
structure ArcLeft (R : ℤ → ℤ → Prop) [DecidableRel R] (coefX coefY : ℤ) (s s' : Store) (x y : ℕ) : Prop where
  inv_x : (s' x).Inv
  inv_y : (s' y).Inv
  dom_x : (s' x).dom = if isBvDomain (s y) ∨ coefY ≠ 1 then
    leftOf (s x).dom (s x).last (fun v => ∃ w ∈ (s y).dom, R v w) else (s x).dom
  dom_y : (s' y).dom = if (s' x).var = .susp ∧ (isBvDomain (s' x) ∨ coefX ≠ 1) then
    leftOf (s y).dom (s y).last (fun w => ∃ v ∈ (s' x).dom, R v w) else (s y).dom
  others : ∀ q, q ≠ x → q ≠ y → s' q = s q

section
variable {R : ℤ → ℤ → Prop} [DecidableRel R] {coefX coefY : ℤ} {s : Store} {x y : ℕ}
  {testX testY : Store → ℤ → Except Stop Bool}

theorem arcConsistent_spec (hxy : x ≠ y) (hx : (s x).Inv) (hy : (s y).Inv) (hvx : (s x).var = .susp)
    (hvy : (s y).var = .susp) (htestX : LooksFor R (s x).first (s x).last y testX)
    (htestY : LooksFor (fun w v => R v w) (s y).first (s y).last x testY) :
    ∃ s', arcConsistent coefX coefY testX testY x y s = .ok s' ∧ ArcLeft R coefX coefY s s' x y := by
  have hyx : y ≠ x := hxy.symm
  -- the first pass
  obtain ⟨d, hrun, hinv, hdom⟩ : ∃ d, arcCall coefY testX x y s = .ok (update s x d) ∧ d.Inv ∧
      d.dom = if isBvDomain (s y) ∨ coefY ≠ 1 then
        leftOf (s x).dom (s x).last (fun v => ∃ w ∈ (s y).dom, R v w) else (s x).dom := by
    rw [arcCall]
    by_cases hlook : isBvDomain (s y) ∨ coefY ≠ 1
    · rw [if_pos hlook, if_pos hlook]
      apply arcAux_spec hx hvx
      intro d e hfe hel
      have hs : update s x d y = s y := update_of_ne hyx _ _
      obtain ⟨b, hb, hsupp⟩ := htestX (update s x d) (by rw [hs]; exact hy.shape) e hfe hel
      rw [hs, ← Dvar.dom_susp hvy] at hsupp
      exact ⟨b, hb, hsupp⟩
    · rw [if_neg hlook, if_neg hlook]
      exact ⟨s x, by rw [update_eq_self], hx, rfl⟩
  simp only [arcConsistent, hrun, bind, Except.bind, update_self]
  have hsy : update s x d y = s y := update_of_ne hyx _ _
  have hstop : ¬ (d.var = .susp ∧ (isBvDomain d ∨ coefX ≠ 1)) →
      ArcLeft R coefX coefY s (update s x d) x y := fun hnot => {
    inv_x := by rwa [update_self]
    inv_y := by rwa [hsy]
    dom_x := by rw [update_self, hdom]
    dom_y := by rw [update_self, if_neg hnot, hsy]
    others := fun q hq _ => update_of_ne hq _ _ }
  by_cases hfree : d.var = .susp
  · rw [if_neg (not_not.2 hfree), arcCall, update_self]
    by_cases hlook : isBvDomain d ∨ coefX ≠ 1
    · rw [if_pos hlook]
      -- the second pass starts from what the first one has left
      have hdecides : Decides (fun w => ∃ v ∈ d.dom, R v w) (update s x d y).first
          (update s x d y).last (update s x d) y testY := by
        intro d' e hfe hel
        rw [hsy] at hfe hel
        have hs : update (update s x d) y d' x = d := by
          rw [update_of_ne hxy, update_self]
        obtain ⟨b, hb, hsupp⟩ := htestY (update (update s x d) y d') (by rw [hs]; exact hinv.shape)
          e hfe hel
        rw [hs, ← Dvar.dom_susp hfree] at hsupp
        exact ⟨b, hb, hsupp⟩
      obtain ⟨d', hrun', hinv', hdom'⟩ := arcAux_spec (by rwa [hsy]) (by rwa [hsy]) hdecides
      have hsx : update (update s x d) y d' x = d := by
        rw [update_of_ne hxy, update_self]
      refine ⟨_, hrun', ?_⟩
      exact {
        inv_x := by rwa [hsx]
        inv_y := by rwa [update_self]
        dom_x := by rw [hsx, hdom]
        dom_y := by rw [hsx, if_pos ⟨hfree, hlook⟩, update_self, hdom', hsy]
        others := fun q hqx hqy => by rw [update_of_ne hqy, update_of_ne hqx] }
    · rw [if_neg hlook]
      exact ⟨_, rfl, hstop fun h => hlook h.2⟩
  · rw [if_pos hfree]
    exact ⟨_, rfl, hstop fun h => hfree h.1⟩

theorem onVariables_eq {f : ℕ → ℕ → Store → Except Stop Store} (hvx : (s x).var = .susp) (hvy : (s y).var = .susp) :
    onVariables s (.dvar x) (.dvar y) f = f x y s := by
  simp only [onVariables, deref, hvx, hvy]

end

/-! ## The tests -/

/-- `A*v - C` fits in a word, for every value of the variable. -/
def FitsWord (A C : ℤ) (d : Dvar) : Prop := ∀ v ∈ d.dom, |A * v - C| < 2 ^ 63

section
variable {first last : ℤ} {z : ℕ}

theorem dmTrue_looksFor {R : ℤ → ℤ → Prop} {f : ℤ → ℤ} (hf : ∀ e w, R e w ↔ w = f e) :
    LooksFor R first last z fun s e => dmTrue (s z) (f e) := by
  intro s h e _ _
  refine ⟨_, dmTrue_eq h, ?_⟩
  rw [decide_eq_true_eq]
  constructor
  · intro hmem
    exact ⟨f e, hmem, (hf e _).2 rfl⟩
  · intro hp
    obtain ⟨w, hw, hR⟩ := hp
    rwa [← (hf e w).1 hR]

theorem quotientSupported_iff {tmp B : ℤ} {s : Store} (h : (s z).Shape) (hB : B ≠ 0) (ht : |tmp| < 2 ^ 63) :
    ∃ b, quotientSupported tmp B z s = .ok b ∧ (b = true ↔ ∃ w ∈ (s z).elems, tmp = B * w) := by
  have hmul : |B * tmp.tdiv B| ≤ |tmp| := by
    rw [abs_mul, Int.abs_eq_natAbs, Int.abs_eq_natAbs, Int.abs_eq_natAbs, Int.natAbs_tdiv]
    exact_mod_cast Nat.mul_div_le _ _
  have hword : bplong (B * tmp.tdiv B) = B * tmp.tdiv B := by
    have hlt := hmul.trans_lt ht
    rw [abs_lt] at hlt
    exact bplong_eq (by omega) hlt.2
  rw [quotientSupported, hword]
  by_cases hdvd : B * tmp.tdiv B = tmp
  · rw [if_neg (not_not.2 hdvd)]
    refine ⟨_, dmTrue_eq h, ?_⟩
    rw [decide_eq_true_eq]
    constructor
    · intro hmem
      exact ⟨_, hmem, hdvd.symm⟩
    · intro hp
      obtain ⟨w, hw, rfl⟩ := hp
      rwa [Int.mul_tdiv_cancel_left w hB]
  · rw [if_pos hdvd]
    refine ⟨false, rfl, ?_⟩
    rw [iff_comm]
    apply iff_of_false _ Bool.false_ne_true
    intro hp
    obtain ⟨w, -, rfl⟩ := hp
    exact hdvd (by rw [Int.mul_tdiv_cancel_left w hB])

theorem FitsWord.between {A C e : ℤ} {d : Dvar} (h : FitsWord A C d) (hd : d.Inv) (hv : d.var = .susp)
    (hfe : d.first ≤ e) (hel : e ≤ d.last) : |A * e - C| < 2 ^ 63 := by
  rw [FitsWord, Dvar.dom_susp hv] at h
  have hfirst := abs_lt.1 (h _ hd.shape.first_mem_elems)
  have hlast := abs_lt.1 (h _ hd.shape.last_mem_elems)
  rw [abs_lt]
  rcases le_total 0 A with hA | hA
  · have h1 := mul_le_mul_of_nonneg_left hfe hA
    have h2 := mul_le_mul_of_nonneg_left hel hA
    omega
  · have h1 := mul_le_mul_of_nonpos_left hfe hA
    have h2 := mul_le_mul_of_nonpos_left hel hA
    omega

section
variable {A B C : ℤ} {d : Dvar} {R : ℤ → ℤ → Prop}

theorem uEqUCSupported_looksFor (hR : ∀ v w, R v w ↔ A * v - C = B * w)
    (hB : B ≠ 0) (hd : d.Inv) (hv : d.var = .susp) (hfit : FitsWord A C d) :
    LooksFor R d.first d.last z (uEqUCSupported A B C z) := by
  intro s h e hfe hel
  have ht := hfit.between hd hv hfe hel
  have hword : bplong (A * e - C) = A * e - C := by
    have hlt := abs_lt.1 ht
    exact bplong_eq (by omega) hlt.2
  simp only [uEqUCSupported, hword, hR]
  exact quotientSupported_iff h hB ht

theorem uuEqCSupported_looksFor (hR : ∀ v w, R v w ↔ C - A * v = B * w)
    (hB : B ≠ 0) (hd : d.Inv) (hv : d.var = .susp) (hfit : FitsWord A C d) :
    LooksFor R d.first d.last z (uuEqCSupported A B C z) := by
  intro s h e hfe hel
  have ht := hfit.between hd hv hfe hel
  rw [abs_sub_comm] at ht
  have hword : bplong (C - A * e) = C - A * e := by
    have hlt := abs_lt.1 ht
    exact bplong_eq (by omega) hlt.2
  simp only [uuEqCSupported, hword, hR]
  exact quotientSupported_iff h hB ht

end

end

/-! ## The propagators -/

section
variable {s : Store} {x y : ℕ}

/-- None of the four propagators fails on two variables, and each leaves of them what `ArcLeft` says. -/
theorem linearArc_spec (hxy : x ≠ y) (hx : (s x).Inv) (hy : (s y).Inv) (hvx : (s x).var = .susp)
    (hvy : (s y).var = .susp) :
    (∀ C, ∃ s', bVVEqCConCcc s (.dvar x) (.dvar y) C = .ok s' ∧ ArcLeft (fun v w => v + w = C) 1 1 s s' x y) ∧
    (∀ C, ∃ s', bVEqVCConCcc s (.dvar x) (.dvar y) C = .ok s' ∧ ArcLeft (fun v w => v = w + C) 1 1 s s' x y) ∧
    (∀ A B C, A ≠ 0 → B ≠ 0 → FitsWord A C (s x) → FitsWord B C (s y) →
      ∃ s', cUUEqCCon s A (.dvar x) B (.dvar y) C = .ok s' ∧ ArcLeft (fun v w => A * v + B * w = C) A B s s' x y) ∧
    (∀ A B C, A ≠ 0 → B ≠ 0 → FitsWord A C (s x) → FitsWord B (-C) (s y) →
      ∃ s', cUEqUCCon s A (.dvar x) B (.dvar y) C = .ok s' ∧ ArcLeft (fun v w => A * v = B * w + C) A B s s' x y) := by
  refine ⟨fun C => ?_, fun C => ?_, fun A B C hA hB hfitx hfity => ?_, fun A B C hA hB hfitx hfity => ?_⟩
  · rw [bVVEqCConCcc, onVariables_eq hvx hvy]
    apply arcConsistent_spec hxy hx hy hvx hvy
    · exact dmTrue_looksFor fun e w => by omega
    · exact dmTrue_looksFor fun e w => by omega
  · rw [bVEqVCConCcc, onVariables_eq hvx hvy]
    apply arcConsistent_spec hxy hx hy hvx hvy
    · exact dmTrue_looksFor fun e w => by omega
    · exact dmTrue_looksFor fun e w => by omega
  · rw [cUUEqCCon, onVariables_eq hvx hvy]
    apply arcConsistent_spec hxy hx hy hvx hvy
    · exact uuEqCSupported_looksFor (fun v w => by omega) hB hx hvx hfitx
    · exact uuEqCSupported_looksFor (fun w v => by omega) hA hy hvy hfity
  · rw [cUEqUCCon, onVariables_eq hvx hvy]
    apply arcConsistent_spec hxy hx hy hvx hvy
    · exact uEqUCSupported_looksFor (fun v w => by omega) hB hx hvx hfitx
    · exact uEqUCSupported_looksFor (fun w v => by omega) hA hy hvy hfity

/-- Variables in `0..1` and `5..6`. -/
def apartStore : Store := fun r => if r = 0 then auxCreateDomainVar 0 1 else auxCreateDomainVar 5 6

theorem fitsWord_apart (r : ℕ) : FitsWord 2 17 (apartStore r) := by
  intro v hv
  have hv' : (0 ≤ v ∧ v ≤ 1) ∨ 5 ≤ v ∧ v ≤ 6 := by
    by_cases hr : r = 0
    · subst hr
      exact .inl (Dvar.mem_elems.1 hv).1
    · rw [apartStore, if_neg hr] at hv
      exact .inr (Dvar.mem_elems.1 hv).1
  rw [abs_lt]
  omega

theorem linearArc_spec_apart : (∃ s', bVVEqCConCcc apartStore (.dvar 0) (.dvar 1) 6 = .ok s' ∧
      ArcLeft (fun v w => v + w = 6) 1 1 apartStore s' 0 1) ∧
    (∃ s', cUUEqCCon apartStore 2 (.dvar 0) 2 (.dvar 1) 17 = .ok s' ∧
      ArcLeft (fun v w => 2 * v + 2 * w = 17) 2 2 apartStore s' 0 1) := by
  have hspec := linearArc_spec (s := apartStore) (x := 0) (y := 1) (by decide) (auxCreateDomainVar_inv (by decide))
    (auxCreateDomainVar_inv (by decide)) rfl rfl
  exact ⟨hspec.1 6, hspec.2.2.1 2 2 17 (by decide) (by decide) (fitsWord_apart 0) (fitsWord_apart 1)⟩

/-- Two intervals without a support between them: nothing is removed, and the call does not fail. -/
theorem bVVEqCConCcc_intervals :
    ¬ ∀ (s : Store) (x y : ℕ) (C : ℤ), x ≠ y → (s x).Inv → (s y).Inv → (s x).var = .susp → (s y).var = .susp →
      (bVVEqCConCcc s (.dvar x) (.dvar y) C = .error .fail ↔ ∀ v ∈ (s x).dom, ¬ ∃ w ∈ (s y).dom, v + w = C) := by
  intro h
  have hfail := (h apartStore 0 1 0 (by decide) (auxCreateDomainVar_inv (by decide))
    (auxCreateDomainVar_inv (by decide)) rfl rfl).2 fun v hv ⟨w, hw, hsum⟩ => by
      have hv' : 0 ≤ v ∧ v ≤ 1 := (Dvar.mem_elems.1 hv).1
      have hw' : 5 ≤ w ∧ w ≤ 6 := (Dvar.mem_elems.1 hw).1
      omega
  have hok : (bVVEqCConCcc apartStore (.dvar 0) (.dvar 1) 0).isOk = true := by decide
  rw [hfail] at hok
  cases hok

end

end Picat
