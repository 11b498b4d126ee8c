import Picat.Bigint.Term
import Picat.Domain.Store

/-!
# Removing the values that have no support

The loops of the binary propagators go through the domain of a variable in ascending order and exclude what fails a
test. Some of them step from element to element, others over every integer between the bounds.

* `Tests` : what the loops need of a test.
-/

namespace Picat

open BitScan Finset

/-- The values that have passed the test before `e` are supported, and nothing else has been removed. A bound variable's
fields may still tell of unsupported values. -/
structure Passed (X : Finset ℤ) (supp : ℤ → Prop) (d : Dvar) (e : ℤ) : Prop where
  inv : d.Inv
  mem_dom : ∀ a, a ∈ d.dom ↔ a ∈ X ∧ (a < e → supp a)
  sub : d.dom ⊆ d.elems
  elems_sub : d.elems ⊆ X
  gone : ∀ a ∈ d.elems, a ∉ d.dom → ¬ supp a

namespace Passed

variable {X : Finset ℤ} {supp : ℤ → Prop} {d : Dvar} {e f : ℤ}

theorem start (h : d.Inv) (hv : d.var = .susp) (he : e ≤ d.first) : Passed d.elems supp d e where
  inv := h
  mem_dom := by
    intro a
    rw [Dvar.dom_susp hv, iff_self_and]
    intro ha hae
    have hfirst := (Dvar.mem_elems.1 ha).1.1
    omega
  sub := by rw [Dvar.dom_susp hv]
  elems_sub := Finset.Subset.refl _
  gone := fun a ha hnot => absurd (by rwa [Dvar.dom_susp hv]) hnot

theorem advance (h : Passed X supp d e) (hef : e ≤ f) (hgap : ∀ a ∈ d.dom, e ≤ a → a < f → supp a) :
    Passed X supp d f where
  inv := h.inv
  mem_dom := by
    intro a
    constructor
    · intro ha
      obtain ⟨haX, hsupp⟩ := (h.mem_dom a).1 ha
      refine ⟨haX, fun haf => ?_⟩
      rcases lt_or_ge a e with hae | hae
      · exact hsupp hae
      · exact hgap a ha hae haf
    · intro hp
      obtain ⟨haX, hsupp⟩ := hp
      exact (h.mem_dom a).2 ⟨haX, fun hae => hsupp (by omega)⟩
  sub := h.sub
  elems_sub := h.elems_sub
  gone := h.gone

theorem keep (h : Passed X supp d e) (he : e ∈ d.dom → supp e) : Passed X supp d (e + 1) := by
  apply h.advance (by omega)
  intro a ha hea hae
  obtain rfl : a = e := by omega
  exact he ha

theorem skip (h : Passed X supp d (e + 1)) (hnext : NextIn d.type.has (e + 1) f) : Passed X supp d f := by
  apply h.advance hnext.le
  intro a ha hea haf
  have hle := hnext.le_of_mem hea (Dvar.mem_elems.1 (h.sub ha)).2
  omega

theorem step (h : Passed X supp d (e + 1)) (hs : d.ScannedTo e) (hlt : e < d.last) :
    ∃ f, nextElm d e = .ok f ∧ e < f ∧ f ≤ d.last ∧ NextIn d.type.has (e + 1) f ∧ Passed X supp d f ∧ d.ScannedTo f := by
  obtain ⟨f, hf, hnext, hle⟩ := h.inv.shape.nextElm hs.low_le hlt
  have hge := hnext.le
  exact ⟨f, hf, by omega, hle, hnext, h.skip hnext, hs.mono (by omega)⟩

theorem remove (h : Passed X supp d e) (he : e ∈ d.dom → ¬ supp e) :
    (domainSetFalseAux d e = .error .fail ∧ ∀ a ∈ X, ¬ supp a) ∨
      ∃ d', domainSetFalseAux d e = .ok d' ∧ Passed X supp d' (e + 1) ∧
        (d' = d ∨ Narrowed d (d.elems.erase e) True d') := by
  rcases h.inv.setFalseAux e with ⟨hfail, hv⟩ | ⟨d', hd', hinv, hdom, hcase⟩
  · apply Or.inl
    refine ⟨hfail, fun a ha hsupp => ?_⟩
    have hmem : a ∈ d.dom := (h.mem_dom a).2 ⟨ha, fun _ => hsupp⟩
    have hae : a = e := by rwa [Dvar.dom_int hv, mem_singleton] at hmem
    subst hae
    exact he hmem hsupp
  · refine .inr ⟨d', hd', ?_, hcase⟩
    have hmem : ∀ a, a ∈ d'.dom ↔ a ∈ X ∧ (a < e + 1 → supp a) := by
      intro a
      rw [hdom, Finset.mem_erase, h.mem_dom]
      constructor
      · intro hp
        obtain ⟨hne, haX, hsupp⟩ := hp
        exact ⟨haX, fun hlt => hsupp (by omega)⟩
      · intro hp
        obtain ⟨haX, hsupp⟩ := hp
        refine ⟨?_, haX, fun hlt => hsupp (by omega)⟩
        rintro rfl
        exact he ((h.mem_dom a).2 ⟨haX, fun hlt => hsupp (by omega)⟩) (hsupp (by omega))
    rcases hcase with rfl | hn
    · exact ⟨hinv, hmem, h.sub, h.elems_sub, h.gone⟩
    · cases hn with
      | updated hvar hcs hrange hshape helems henough hexact =>
        have hdom' : d'.dom ⊆ d'.elems := by
          rw [hdom, helems]
          exact erase_subset_erase e h.sub
        refine ⟨hinv, hmem, hdom', ?_, fun a ha hnot => ?_⟩
        · rw [helems]
          exact (erase_subset e d.elems).trans h.elems_sub
        · rw [helems, Finset.mem_erase] at ha
          rw [hdom, Finset.mem_erase, not_and] at hnot
          exact h.gone a ha.2 (hnot ha.1)
      | @assigned v hS hexact =>
        -- the fields keep the element that was just taken out
        have hsub : (assignDvar d v).dom ⊆ d.elems := by
          rw [hdom]
          exact (erase_subset e d.dom).trans h.sub
        refine ⟨hinv, hmem, hsub, h.elems_sub, fun a ha hnot => ?_⟩
        rw [hdom, Finset.mem_erase, not_and] at hnot
        by_cases hin : a ∈ d.dom
        · have hae : a = e := by
            by_contra hne
            exact hnot hne hin
          subst hae
          exact he hin
        · exact h.gone a ha hin

theorem remove_susp (h : Passed X supp d e) (hv : d.var = .susp) (he : ¬ supp e) :
    ∃ d', domainSetFalseAux d e = .ok d' ∧ Passed X supp d' (e + 1) ∧
      (d' = d ∨ Narrowed d (d.elems.erase e) True d') := by
  rcases h.remove fun _ => he with ⟨hfail, -⟩ | hgoes
  · rcases h.inv.setFalseAux e with ⟨-, hint⟩ | ⟨d', hd', -⟩
    · rw [hv] at hint
      cases hint
    · rw [hfail] at hd'
      cases hd'
  · exact hgoes

theorem done [DecidablePred supp] (h : Passed X supp d e) (he : ∀ a ∈ X, a < e) : d.dom = X.filter supp := by
  ext a
  rw [h.mem_dom, mem_filter, and_congr_right_iff]
  intro ha
  simp [he a ha]

end Passed

/-- The test decides the support of what is left of the domain, in every state of the pass. -/
def Tests (X : Finset ℤ) (supp : ℤ → Prop) (s₀ : Store) (r : ℕ) (supported : Store → ℤ → Except Stop Bool) : Prop :=
  ∀ d e, Passed X supp d e → ∃ b, supported (Function.update s₀ r d) e = .ok b ∧ (e ∈ d.dom → (b = true ↔ supp e))

end Picat

/-! # The multiplication propagator -/

namespace Picat

/-! ## Divisions and bounds -/

/-- The part of `sound_low_div` after the divisor has been made positive. -/
def lowDiv (a b : ℤ) : ℤ :=
  if a ≥ 0 then a.tdiv b
  else
    let val := a.tdiv b
    if val * b ≠ a then val - 1 else val

def soundLowDiv (a b : ℤ) : ℤ := if b < 0 then lowDiv (-a) (-b) else lowDiv a b

/-- The part of `sound_up_div` after the divisor has been made positive. -/
def upDiv (a b : ℤ) : ℤ :=
  if a ≤ 0 then a.tdiv b
  else
    let val := a.tdiv b
    if val * b ≠ a then val + 1 else val

def soundUpDiv (a b : ℤ) : ℤ := if b < 0 then upDiv (-a) (-b) else upDiv a b

/-- `min4`, and the lower bound of `min_max4`. -/
def min4 (val1 val2 val3 val4 : ℤ) : ℤ := min (min (min val1 val2) val3) val4

/-- `max4`, and the upper bound of `min_max4`. -/
def max4 (val1 val2 val3 val4 : ℤ) : ℤ := max (max (max val1 val2) val3) val4

def bpMaxint1WSqrt : ℤ := 268435455

def isSmallDomain2 (fdRegionLow fdRegionUp min max : ℤ) : Bool := decide (min ≥ fdRegionLow ∧ max ≤ fdRegionUp)

def isSmallDomain (fdRegionLow fdRegionUp : ℤ) (d : Dvar) : Bool := isSmallDomain2 fdRegionLow fdRegionUp d.first d.last

def isBvDomain (d : Dvar) : Bool := decide (d.type ≠ .it)

/-! ## The exclusion loops -/

/-- The inner loops that enumerate the domain of `d` up to `maxX` until a support is found. -/
def searchLoop (d : Dvar) (maxX : ℤ) (test : ℤ → Except Stop Bool) : ℕ → ℤ → Except Stop Bool
  | 0, _ => .error .oob
  | fuel + 1, eX => do
      let found ← test eX
      if found then return true
      else if eX = maxX then return false
      else do
        let eX ← nextElm d eX
        searchLoop d maxX test fuel eX

/-- `loop_X`, from `minX` on. -/
def searchDomain (d : Dvar) (minX maxX : ℤ) (test : ℤ → Except Stop Bool) : Except Stop Bool :=
  searchLoop d maxX test ((maxX - minX).toNat + 1) minX

/-- `if (eY == 0)`: `0` is supported if `0` is in the domain of `Z`. -/
def zeroSupported (dz : Dvar) (eY : ℤ) : Except Stop Bool := if eY = 0 then dmTrue dz 0 else .ok false

/-- The rest of the test of `exclude_unsupported_y_constr_xy_eq_z`, which is also made for `0`. -/
def factorSupported (s : Store) (x y z : ℕ) (minX maxX eY : ℤ) : Except Stop Bool :=
  if x = y then dmTrue (s z) (bplong (eY * eY))
  else searchDomain (s x) minX maxX (fun eX => dmTrue (s z) (bplong (eX * eY)))

/-- The test of `exclude_unsupported_y_constr_xy_eq_z`. -/
def supportedXyEqZ (x y z : ℕ) (minX maxX : ℤ) (s : Store) (eY : ℤ) : Except Stop Bool := do
  let atZero ← zeroSupported (s z) eY
  let found ← factorSupported s x y z minX maxX eY
  return atZero || found

def excludeUnsupportedYConstrXyEqZ (s : Store) (x y z : ℕ) : Except Stop Store :=
  filterDomain domainSetFalseNoint true (supportedXyEqZ x y z (s x).first (s x).last) y s

/-- The test of `exclude_unsupported_y_constr_xy_eq_c`. -/
def supportedXyEqC (x y : ℕ) (cz : ℤ) (s : Store) (eY : ℤ) : Except Stop Bool :=
  if eY = 0 then .ok (decide (cz = 0))
  else if x = y then .ok (decide (bplong (eY * eY) = cz))
  else if cz.tdiv eY * eY = cz then dmTrue (s x) (cz.tdiv eY)
  else .ok false

def excludeUnsupportedYConstrXyEqC (s : Store) (x y : ℕ) (cz : ℤ) : Except Stop Store :=
  filterDomain domainSetFalseNoint true (supportedXyEqC x y cz) y s

/-- The test in `loop_X` of `exclude_unsupported_z_constr_xy_eq_z`. -/
def dividesInto (dy : Dvar) (eZ eX : ℤ) : Except Stop Bool :=
  if eX ≠ 0 then
    if eX * eZ.tdiv eX = eZ then dmTrue dy (eZ.tdiv eX) else .ok false
  else .ok false

/-- `dm_true(x, 0) || dm_true(y, 0)`. -/
def zeroInEither (dx dy : Dvar) : Except Stop Bool := do
  let b ← dmTrue dx 0
  if b then return true else dmTrue dy 0

/-- The test of `exclude_unsupported_z_constr_xy_eq_z`. The square root of a square of one word is exact, and other numbers
fail the test whatever the rounding. -/
def supportedProduct (x y : ℕ) (minX maxX : ℤ) (s : Store) (eZ : ℤ) : Except Stop Bool :=
  if eZ = 0 then zeroInEither (s x) (s y)
  else if x = y then .ok (decide (eZ > 0 ∧ Int.sqrt eZ * Int.sqrt eZ = eZ))
  else searchDomain (s x) minX maxX (dividesInto (s y) eZ)

/-- The loop of `exclude_unsupported_z_constr_xy_eq_z`, after `dv_ptr_x` and `dv_ptr_y` have been put in order. -/
def excludeProducts (s : Store) (x y z : ℕ) : Except Stop Store :=
  filterDomain domainSetFalseNoint true (supportedProduct x y (s x).first (s x).last) z s

def excludeUnsupportedZConstrXyEqZ (s : Store) (x y z : ℕ) : Except Stop Store :=
  if (s x).size > (s y).size then excludeProducts s y x z else excludeProducts s x y z

/-- The test of the loop for an integer factor `a`. -/
def supportedByInt (a : ℤ) (y : ℕ) (s : Store) (elm : ℤ) : Except Stop Bool :=
  if a * elm.tdiv a = elm then dmTrue (s y) (elm.tdiv a) else .ok false

/-- The branch of `b_CLPFD_MULTIPLY_INT_ccc` for a factor that is the integer `a`. -/
def multiplyByInt (s : Store) (a : ℤ) (Y Z : FdTerm) : Except Stop Store :=
  match Y, Z with
  | .dvar y, .dvar z =>
    if (a ≠ 0 ∧ a ≠ 1 ∧ a ≠ -1) ∧ (s z).size ≤ 100 then filterDomain domainSetFalseAux false (supportedByInt a y) z s
    else .ok s
  | _, _ => .ok s

/-! ## Two variable factors -/

/-- `if (ISINT(FOLLOW(dv_ptr))) return BP_TRUE`. -/
def returnIfInt (s : Store) (r : ℕ) : Except (Exit Stop Store) Store :=
  if (s r).isInt then .error (.ret s) else .ok s

/-- A call of `domain_region_noint` on one of the factors: it fails, or returns once the variable is assigned. -/
def regionOrReturn (s : Store) (r : ℕ) (from' to' : ℤ) : Except (Exit Stop Store) Store := do
  let s ← Exit.call (updateM s r (fun d => domainRegionNoint d from' to'))
  returnIfInt s r

/-- A call of `domain_set_false_aux` whose result is not looked at. -/
def setFalseIgnored (s : Store) (r : ℕ) (elm : ℤ) : Except Stop Store :=
  match domainSetFalseAux (s r) elm with
  | .ok d => .ok (Function.update s r d)
  | .error .fail => .ok s
  | .error .oob => .error .oob

/-- The minimum and the maximum of `Z`, and `z_includes_0`. -/
def productBounds (s : Store) : FdTerm → Except Stop (ℤ × ℤ × Bool)
  | .dvar z => do
    let includes0 ← dmTrue (s z) 0
    return ((s z).first, (s z).last, includes0)
  | .int c => .ok (c, c, !decide (c > 0 ∨ c < 0))

/-- `Z > 0`: a factor that is not negative makes the other one positive. -/
def positiveFactor (s : Store) (x y : ℕ) : Except (Exit Stop Store) Store :=
  if (s x).first ≥ 0 then regionOrReturn s y 1 (s y).last else .ok s

/-- `Z` is not `0`, and neither is a factor. -/
def nonzeroFactor (fdRegionLow fdRegionUp : ℤ) (s : Store) (x : ℕ) : Except (Exit Stop Store) Store :=
  if isSmallDomain fdRegionLow fdRegionUp (s x) then do
    let s ← Exit.call (setFalseIgnored s x 0)
    returnIfInt s x
  else .ok s

/-- What the sign of `Z` says about the factors. -/
def multiplySigns (fdRegionLow fdRegionUp : ℤ) (s : Store) (x y : ℕ) (minZ : ℤ) (includes0 : Bool) :
    Except (Exit Stop Store) Store :=
  if minZ > 0 then do
    let s ← positiveFactor s x y
    positiveFactor s y x
  else if includes0 = false then do
    let s ← nonzeroFactor fdRegionLow fdRegionUp s x
    nonzeroFactor fdRegionLow fdRegionUp s y
  else .ok s

/-- `lowZ` and `upZ`. -/
def productRange (minX maxX minY maxY : ℤ) : ℤ × ℤ :=
  if minX ≥ 0 ∧ minY ≥ 0 then (minX * minY, maxX * maxY)
  else (min4 (minX * minY) (minX * maxY) (maxX * minY) (maxX * maxY),
    max4 (minX * minY) (minX * maxY) (maxX * minY) (maxX * maxY))

/-- The region of the products, once it is known; `Z` is dereferenced again. -/
def narrowProduct (s : Store) (Z : FdTerm) (minZ maxZ lowZ upZ : ℤ) : Except Stop (Store × FdTerm × ℤ × ℤ) :=
  match Z with
  | .dvar z => do
    let s ← updateM s z (fun d => domainRegionNoint d lowZ upZ)
    match deref s (.dvar z) with
    | .dvar z => return (s, .dvar z, (s z).first, (s z).last)
    | .int c => return (s, .int c, c, c)
  | .int c => if maxZ < lowZ ∨ minZ > upZ then .error .fail else .ok (s, .int c, minZ, maxZ)

/-- The bounds of `Z` from those of the factors, when the products fit one word. -/
def multiplyProduct (s : Store) (Z : FdTerm) (minX maxX minY maxY minZ maxZ : ℤ) :
    Except Stop (Store × FdTerm × ℤ × ℤ) :=
  if minX ≥ -bpMaxint1WSqrt ∧ maxX ≤ bpMaxint1WSqrt ∧ minY ≥ -bpMaxint1WSqrt ∧ maxY ≤ bpMaxint1WSqrt then
    narrowProduct s Z minZ maxZ (productRange minX maxX minY maxY).1 (productRange minX maxX minY maxY).2
  else .ok (s, Z, minZ, maxZ)

/-- With all of them positive, no factor is above the product; the new upper bounds of the factors. -/
def multiplyPositive (s : Store) (x y : ℕ) (minX maxX minY maxY minZ maxZ : ℤ) :
    Except (Exit Stop Store) (Store × ℤ × ℤ) :=
  if minX ≥ 0 ∧ minY ≥ 0 ∧ minZ > 0 then do
    let s ← regionOrReturn s x minX maxZ
    let maxX := (s x).last
    let s ← regionOrReturn s y minY maxZ
    return (s, maxX, (s y).last)
  else .ok (s, maxX, maxY)

/-- `(min > 0 && max < BP_MAXINT_1W) || (max < 0 && min > BP_MININT_1W)`: a divisor of one sign, with known bounds. -/
def oneSign (min max : ℤ) : Bool := decide ((min > 0 ∧ max < bpMaxint1W) ∨ (max < 0 ∧ min > bpMinint1W))

/-- `lowY` and `upY` for the factor that `Z` is divided by. -/
def quotientRange (minZ maxZ minX maxX : ℤ) : ℤ × ℤ :=
  (min4 (soundLowDiv minZ minX) (soundLowDiv minZ maxX) (soundLowDiv maxZ minX) (soundLowDiv maxZ maxX),
    max4 (soundUpDiv minZ minX) (soundUpDiv minZ maxX) (soundUpDiv maxZ minX) (soundUpDiv maxZ maxX))

/-- The bounds of the factor `y` from those of `Z` and the other factor. -/
def divideFactor (s : Store) (y : ℕ) (minZ maxZ minX maxX : ℤ) : Except (Exit Stop Store) Store :=
  if oneSign minX maxX then
    regionOrReturn s y (quotientRange minZ maxZ minX maxX).1 (quotientRange minZ maxZ minX maxX).2
  else .ok s

/-- The bounds of `Y` after they have been divided: they are read again only then. -/
def dividedBounds (s : Store) (y : ℕ) (minX maxX minY maxY : ℤ) : ℤ × ℤ :=
  if oneSign minX maxX then ((s y).first, (s y).last) else (minY, maxY)

/-- The loop over the factor `y`, when it is small, the range of `x` short and, for a variable `Z`, one of the domains
a bit vector. -/
def filterFactor (fdRegionLow fdRegionUp : ℤ) (s : Store) (x y : ℕ) (Z : FdTerm) (rangeX : ℤ) :
    Except (Exit Stop Store) Store :=
  match Z with
  | .dvar z =>
    if isSmallDomain fdRegionLow fdRegionUp (s y) && decide (rangeX ≤ 65536) && (isBvDomain (s x) || isBvDomain (s z)) then do
      let s ← Exit.call (excludeUnsupportedYConstrXyEqZ s x y z)
      returnIfInt s y
    else .ok s
  | .int cz =>
    if isSmallDomain fdRegionLow fdRegionUp (s y) && decide (rangeX ≤ 65536) then do
      let s ← Exit.call (excludeUnsupportedYConstrXyEqC s x y cz)
      returnIfInt s y
    else .ok s

/-- The propagator on two variable factors up to its last loop, with what `Z` and its bounds are there. -/
def multiplyBounds (fdRegionLow fdRegionUp : ℤ) (s : Store) (x y : ℕ) (Z : FdTerm) :
    Except (Exit Stop Store) (Store × FdTerm × ℤ × ℤ) := do
  let (minZ, maxZ, includes0) ← Exit.call (productBounds s Z)
  let s ← multiplySigns fdRegionLow fdRegionUp s x y minZ includes0
  let minX := (s x).first
  let maxX := (s x).last
  let minY := (s y).first
  let maxY := (s y).last
  let (s, Z, minZ, maxZ) ← Exit.call (multiplyProduct s Z minX maxX minY maxY minZ maxZ)
  if minZ = bpMinint1W ∨ maxZ = bpMaxint1W then .error (.ret s)
  else do
    let (s, maxX, maxY) ← multiplyPositive s x y minX maxX minY maxY minZ maxZ
    let s ← divideFactor s y minZ maxZ minX maxX
    let (minY, maxY) := dividedBounds s y minX maxX minY maxY
    let s ← divideFactor s x minZ maxZ minY maxY
    let s ← filterFactor fdRegionLow fdRegionUp s x y Z (maxX - minX)
    let s ← filterFactor fdRegionLow fdRegionUp s y x Z (maxY - minY)
    return (s, Z, minZ, maxZ)

/-- The last loop, over `Z`. -/
def filterProduct (fdRegionLow fdRegionUp : ℤ) (x y : ℕ) : Store × FdTerm × ℤ × ℤ → Except Stop Store
  | (s, .dvar z, minZ, maxZ) =>
    if isSmallDomain2 fdRegionLow fdRegionUp minZ maxZ && (isBvDomain (s x) || isBvDomain (s y)) then
      excludeUnsupportedZConstrXyEqZ s x y z
    else .ok s
  | (s, .int _, _, _) => .ok s

/-- `b_CLPFD_MULTIPLY_INT_ccc`. An integer `Y` is swapped with `X`. -/
def bClpfdMultiplyIntCcc (fdRegionLow fdRegionUp : ℤ) (s : Store) (X Y Z : FdTerm) : Except Stop Store :=
  match deref s X, deref s Y with
  | .int a, Y => multiplyByInt s a Y (deref s Z)
  | .dvar x, .int a => multiplyByInt s a (.dvar x) (deref s Z)
  | .dvar x, .dvar y => Exit.run (do
      let r ← multiplyBounds fdRegionLow fdRegionUp s x y (deref s Z)
      Exit.call (filterProduct fdRegionLow fdRegionUp x y r))

end Picat
