import Picat.Domain.Store

/-!
# Disjoint domains and intersections

* `itToBv` : the change of representation; `itToBv_keeps`, `itToBv_inv`.
-/

namespace Picat

open BitScan

/-! ## Disjoint domains -/

/-- The loop over the words, for the words still to come after the current ones. Only the last word of `dv_ptr1` is
masked. -/
def dmDisjointLoop (ws1 ws2 : List (BitVec 64)) (lastOffset : ℕ) : ℕ → ℕ → BitVec 64 → BitVec 64 → Except Stop Bool
  | 0, _, w1, w2 => .ok (w1 &&& maskFf >>> (64 - lastOffset - 1) &&& w2 = 0)
  | k + 1, wPtr, w1, w2 =>
    if w1 &&& w2 ≠ 0 then .ok false
    else do
      let w1 ← readWord ws1 (wPtr + 1)
      let w2 ← readWord ws2 (wPtr + 1)
      dmDisjointLoop ws1 ws2 lastOffset k (wPtr + 1) w1 w2

def dmDisjointBv (b1 b2 : BitVector) (min max : ℤ) : Except Stop Bool := do
  let (w1, wPtr1, offset) ← wordOffset b1 min
  let (w2, _, _) ← wordOffset b2 min
  let (_, lastWPtr1, lastOffset) ← wordOffset b1 max
  dmDisjointLoop b1.words b2.words lastOffset (lastWPtr1 - wPtr1) wPtr1 (w1 &&& maskFf <<< offset) w2

/-- `dm_true(dv_ptr1, min) && dm_true(dv_ptr2, min)`. -/
def dmTrueBoth (d1 d2 : Dvar) (elm : ℤ) : Except Stop Bool := do
  if ← dmTrue d1 elm then dmTrue d2 elm else return false

def dmDisjointElms (d1 d2 : Dvar) (max : ℤ) : ℕ → ℤ → Except Stop Bool
  | 0, _ => .error .oob
  | fuel + 1, min => do
      if ← dmTrueBoth d1 d2 min then return false
      else if min ≥ max then return true
      else do
        let min ← nextElm d2 min
        dmDisjointElms d1 d2 max fuel min

def sameBounds (d1 d2 : Dvar) : Option (BitVector × BitVector) :=
  match d1.type, d2.type with
  | .bv b1, .bv b2 => if b1.low = b2.low ∧ b1.up = b2.up then some (b1, b2) else none
  | _, _ => none

/-- The comparison between the larger of the first and the smaller of the last elements. -/
def dmDisjointFrom (d1 d2 : Dvar) (min max : ℤ) : Except Stop Bool :=
  if min = max then .ok false
  else if min > max then .ok true
  else
    match sameBounds d1 d2 with
    | some (b1, b2) => dmDisjointBv b1 b2 min max
    | none => dmDisjointElms d1 d2 max ((max - min).toNat + 1) min

def dmDisjoint (d1 d2 : Dvar) : Except Stop Bool :=
  if d1.first = d2.first then .ok false
  else if d1.last = d2.last then .ok false
  else
    dmDisjointFrom d1 d2 (if d1.first > d2.first then d1.first else d2.first)
      (if d1.last < d2.last then d1.last else d2.last)

/-- The opposite of a test of `dm_true`. -/
def dmFalse (d : Dvar) (elm : ℤ) : Except Stop Bool := do
  let b ← dmTrue d elm
  return !b

/-! ## The test is right -/

section
variable {d1 d2 : Dvar}

/-- Bit `x` is set in both rows of words. -/
def bothAt (ws1 ws2 : List (BitVec 64)) (x : ℕ) : Prop := bitAt ws1 x = true ∧ bitAt ws2 x = true

theorem readWord_getLsbD (ws : List (BitVec 64)) (wPtr : ℕ) (hlt : wPtr < ws.length) :
    ∃ w, readWord ws wPtr = .ok w ∧ ∀ i < 64, w.getLsbD i = bitAt ws (64 * wPtr + i) :=
  ⟨_, readWord_eq hlt, fun _ hi => (bitAt_word (List.getElem?_eq_getElem hlt) hi).symm⟩

/-- The loop looks for a common bit from `o` in the current word up to the last offset in the last word. -/
theorem dmDisjointLoop_spec (ws1 ws2 : List (BitVec 64)) {lastOffset : ℕ} (hlast : lastOffset < 64) :
    ∀ (k wPtr : ℕ) (w1 w2 : BitVec 64) (o : ℕ), o < 64 → wPtr + k < ws1.length → wPtr + k < ws2.length →
      (∀ i < 64, w1.getLsbD i = (bitAt ws1 (64 * wPtr + i) && decide (o ≤ i))) →
      (∀ i < 64, w2.getLsbD i = bitAt ws2 (64 * wPtr + i)) →
      ∃ b, dmDisjointLoop ws1 ws2 lastOffset k wPtr w1 w2 = .ok b ∧
        (b = true ↔ ∀ x, 64 * wPtr + o ≤ x → x ≤ 64 * (wPtr + k) + lastOffset → ¬ bothAt ws1 ws2 x) := by
  intro k
  induction k with
  | zero =>
    intro wPtr w1 w2 o _ _ _ hw1 hw2
    refine ⟨_, rfl, ?_⟩
    rw [decide_eq_true_iff]
    refine and_eq_zero.trans ⟨fun h x hx hxl hboth => ?_, fun h i hi hboth => ?_⟩
    · obtain ⟨i, rfl⟩ := Nat.exists_eq_add_of_le (show 64 * wPtr ≤ x by omega)
      apply h i (by omega)
      rw [maskFf, getLsbD_and_ushiftRight hlast, hw1 i (by omega), hw2 i (by omega)]
      simp [hboth.1, hboth.2, show o ≤ i by omega, show i ≤ lastOffset by omega]
    · rw [maskFf, getLsbD_and_ushiftRight hlast, hw1 i hi, hw2 i hi] at hboth
      simp only [Bool.and_eq_true, decide_eq_true_eq] at hboth
      exact h (64 * wPtr + i) (by omega) (by omega) ⟨hboth.1.1.1, hboth.2⟩
  | succ k ih =>
    intro wPtr w1 w2 o ho hlt1 hlt2 hw1 hw2
    unfold dmDisjointLoop
    by_cases hand : w1 &&& w2 = 0
    · rw [if_neg (by simpa using hand)]
      obtain ⟨w1', hread1, hw1'⟩ := readWord_getLsbD ws1 (wPtr + 1) (by omega)
      obtain ⟨w2', hread2, hw2'⟩ := readWord_getLsbD ws2 (wPtr + 1) (by omega)
      obtain ⟨b, hrun, hb⟩ := ih (wPtr + 1) w1' w2' 0 (by omega) (by omega) (by omega) (by simpa using hw1') hw2'
      refine ⟨b, by simp only [hread1, hread2, bind, Except.bind, hrun], hb.trans ?_⟩
      refine ⟨fun h x hx hxl hboth => ?_, fun h x hx hxl => h x (by omega) (by omega)⟩
      -- a common bit of the current word would have shown in the test
      by_cases hword : x < 64 * (wPtr + 1)
      · obtain ⟨i, rfl⟩ := Nat.exists_eq_add_of_le (show 64 * wPtr ≤ x by omega)
        apply and_eq_zero.1 hand i (by omega)
        rw [hw1 i (by omega), hw2 i (by omega)]
        simp [hboth.1, hboth.2, show o ≤ i by omega]
      · exact h x (by omega) (by omega) hboth
    · rw [if_pos hand]
      refine ⟨false, rfl, iff_of_false Bool.false_ne_true fun h => hand (and_eq_zero.2 fun i hi hboth => ?_)⟩
      rw [hw1 i hi, hw2 i hi] at hboth
      simp only [Bool.and_eq_true, decide_eq_true_eq] at hboth
      exact h (64 * wPtr + i) (by omega) (by omega) ⟨hboth.1.1, hboth.2⟩

theorem dmDisjointBv_spec (min max : ℤ) {b1 b2 : BitVector} (hlow : b1.low = b2.low) (hlen : b1.words.length = b2.words.length)
    (hmin : b1.low ≤ min) (hle : min ≤ max) (hmax : max < b1.low + 64 * b1.words.length) :
    ∃ b, dmDisjointBv b1 b2 min max = .ok b ∧
      (b = true ↔ ∀ x, min ≤ x → x ≤ max → ¬ (b1.has x = true ∧ b2.has x = true)) := by
  obtain ⟨w1, wPtr1, o1, hoff1, hget1, ho1, -, hx1⟩ := wordOffset_eq (b := b1) (x := min) (by omega) (by omega)
  obtain ⟨w2, wPtr2, o2, hoff2, hget2, ho2, -, hx2⟩ := wordOffset_eq (b := b2) (x := min) (by omega) (by omega)
  obtain ⟨w3, wPtr3, o3, hoff3, hget3, ho3, -, hx3⟩ := wordOffset_eq (b := b1) (x := max) (by omega) (by omega)
  have hlt3 := (List.getElem?_eq_some_iff.1 hget3).1
  obtain rfl : wPtr2 = wPtr1 := by omega
  obtain rfl : o2 = o1 := by omega
  obtain ⟨k, rfl⟩ := Nat.exists_eq_add_of_le (show wPtr2 ≤ wPtr3 by omega)
  obtain ⟨b, hrun, hb⟩ := dmDisjointLoop_spec b1.words b2.words ho3 k wPtr2 (w1 &&& maskFf <<< o2) w2 o2
    ho2 (by omega) (by omega)
    (fun i hi => by rw [maskFf, getLsbD_and_shiftLeft hi, bitAt_word hget1 hi])
    (fun i hi => (bitAt_word hget2 hi).symm)
  refine ⟨b, ?_, hb.trans ?_⟩
  · simp only [dmDisjointBv, hoff1, hoff2, hoff3, bind, Except.bind, Nat.add_sub_cancel_left, hrun]
  have hhas : ∀ x : ℕ, bothAt b1.words b2.words x ↔ b1.has (b1.low + x) = true ∧ b2.has (b1.low + x) = true := fun x => by
    rw [bothAt, ← b1.holds x, ← b2.holds x, hlow]
  refine ⟨fun h x hx hxl => ?_, fun h x hx hxl => ?_⟩
  · have := h (x - b1.low).toNat (by omega) (by omega)
    rwa [hhas, show b1.low + ((x - b1.low).toNat : ℤ) = x by omega] at this
  · rw [hhas]
    exact h (b1.low + x) (by omega) (by omega)

/-- The loop over the elements looks for a common one up to `max`, and further ones cannot be common. -/
theorem dmDisjointElms_spec (max : ℤ) (h1 : d1.Shape) (h2 : d2.Shape) (hmax : max ≤ d2.last)
    (hout : ∀ x, max < x → ¬ (x ∈ d1.elems ∧ x ∈ d2.elems)) :
    ∀ (fuel : ℕ) (min : ℤ), 0 < fuel → d2.first ≤ min → max - min < fuel →
      ∃ b, dmDisjointElms d1 d2 max fuel min = .ok b ∧
        (b = true ↔ ∀ x, min ≤ x → x ≤ max → ¬ (x ∈ d1.elems ∧ x ∈ d2.elems)) := by
  intro fuel
  induction fuel with
  | zero =>
    intro min hpos
    omega
  | succ fuel ih =>
    intro min _ hfirst hlt
    have hrun : dmTrueBoth d1 d2 min = .ok (decide (min ∈ d1.elems ∧ min ∈ d2.elems)) := by
      simp only [dmTrueBoth, dmTrue_eq h1, dmTrue_eq h2, bind, Except.bind]
      by_cases hmem : min ∈ d1.elems
      · simp [hmem]
      · simp [hmem, pure, Except.pure]
    simp only [dmDisjointElms, hrun, bind, Except.bind]
    by_cases hboth : min ∈ d1.elems ∧ min ∈ d2.elems
    · rw [if_pos (decide_eq_true hboth)]
      have hle : min ≤ max := not_lt.1 fun hlt => hout min hlt hboth
      exact ⟨false, rfl, iff_of_false Bool.false_ne_true fun h => h min (le_refl min) hle hboth⟩
    rw [if_neg (by simpa using hboth)]
    by_cases hend : min ≥ max
    · rw [if_pos hend]
      refine ⟨true, rfl, iff_of_true rfl fun x hx hxl => ?_⟩
      rwa [show x = min by omega]
    rw [if_neg hend]
    obtain ⟨e, he, hin, -⟩ := nextElm_eq h2 (show d2.first ≤ min + 1 by omega) (show min < d2.last by omega)
    have hge := hin.le
    obtain ⟨b, hrun', hb⟩ := ih e (by omega) (by omega) (by push_cast at hlt; omega)
    refine ⟨b, by simp only [he, hrun'], hb.trans ?_⟩
    refine ⟨fun h x hx hxl hmem => ?_, fun h x hx hxl => h x (by omega) hxl⟩
    by_cases hxe : x = min
    · exact hboth (hxe ▸ hmem)
    · exact h x (hin.le_of_mem (by omega) (Dvar.mem_elems.1 hmem.2).2) hxl hmem

theorem sameBounds_eq_some {b1 b2 : BitVector} (h : sameBounds d1 d2 = some (b1, b2)) :
    d1.type = .bv b1 ∧ d2.type = .bv b2 ∧ b1.low = b2.low ∧ b1.up = b2.up := by
  unfold sameBounds at h
  cases hd1 : d1.type with
  | it => simp [hd1] at h
  | bv b =>
    cases hd2 : d2.type with
    | it => simp [hd1, hd2] at h
    | bv b' =>
      simp only [hd1, hd2, Option.ite_none_right_eq_some, Option.some.injEq, Prod.mk.injEq] at h
      obtain ⟨hb, rfl, rfl⟩ := h
      exact ⟨rfl, rfl, hb⟩

theorem dmDisjointBv_dvar {b1 b2 : BitVector} {min max : ℤ} (h1 : d1.Shape) (h2 : d2.Shape)
    (hsame : sameBounds d1 d2 = some (b1, b2)) (hmin1 : d1.first ≤ min) (hmin2 : d2.first ≤ min) (hle : min ≤ max)
    (hmax1 : max ≤ d1.last) (hmax2 : max ≤ d2.last) :
    ∃ b, dmDisjointBv b1 b2 min max = .ok b ∧
      (b = true ↔ ∀ x, min ≤ x → x ≤ max → ¬ (x ∈ d1.elems ∧ x ∈ d2.elems)) := by
  obtain ⟨ht1, ht2, hlow, hup⟩ := sameBounds_eq_some hsame
  have hf1 := h1.filled b1 ht1
  have hf2 := h2.filled b2 ht2
  have hl1 := h1.low_le ht1
  have hl2 := h1.last_lt ht1
  unfold BitVector.Filled at hf1 hf2
  obtain ⟨b, hrun, hb⟩ := dmDisjointBv_spec min max hlow (by omega) (by omega) hle (by omega)
  refine ⟨b, hrun, hb.trans (forall_congr' fun x => ?_)⟩
  refine forall_congr' fun hx => forall_congr' fun hxl => not_congr ?_
  rw [Dvar.mem_elems, Dvar.mem_elems, ht1, ht2]
  exact ⟨fun h => ⟨⟨by omega, h.1⟩, by omega, h.2⟩, fun h => ⟨h.1.2, h.2.2⟩⟩

/-- The test never claims two domains that meet to be disjoint, and sees that two domains are disjoint when each has
another element than its first. -/
theorem dmDisjoint_spec (h1 : d1.Shape) (h2 : d2.Shape) :
    ∃ b, dmDisjoint d1 d2 = .ok b ∧ (b = true → ∀ x, ¬ (x ∈ d1.elems ∧ x ∈ d2.elems)) ∧
      (d1.first < d1.last → d2.first < d2.last → b = false → ∃ x, x ∈ d1.elems ∧ x ∈ d2.elems) := by
  have hle1 := h1.le
  have hle2 := h2.le
  have hout : ∀ x, x ∈ d1.elems ∧ x ∈ d2.elems → (d1.first ≤ x ∧ d2.first ≤ x) ∧ x ≤ d1.last ∧ x ≤ d2.last :=
    fun x hx => ⟨⟨(Dvar.mem_elems.1 hx.1).1.1, (Dvar.mem_elems.1 hx.2).1.1⟩, (Dvar.mem_elems.1 hx.1).1.2,
      (Dvar.mem_elems.1 hx.2).1.2⟩
  unfold dmDisjoint
  by_cases hfirst : d1.first = d2.first
  · rw [if_pos hfirst]
    exact ⟨false, rfl, fun h => by contradiction, fun _ _ _ => ⟨_, h1.first_mem_elems, hfirst ▸ h2.first_mem_elems⟩⟩
  rw [if_neg hfirst]
  by_cases hlast : d1.last = d2.last
  · rw [if_pos hlast]
    exact ⟨false, rfl, fun h => by contradiction, fun _ _ _ => ⟨_, h1.last_mem_elems, hlast ▸ h2.last_mem_elems⟩⟩
  rw [if_neg hlast]
  obtain ⟨min, hmin⟩ : ∃ min, min = if d1.first > d2.first then d1.first else d2.first := ⟨_, rfl⟩
  obtain ⟨max, hmax⟩ : ∃ max, max = if d1.last < d2.last then d1.last else d2.last := ⟨_, rfl⟩
  rw [← hmin, ← hmax]
  have hmin' : min = Max.max d1.first d2.first := by
    rw [hmin]
    split_ifs <;> omega
  have hmax' : max = Min.min d1.last d2.last := by
    rw [hmax]
    split_ifs <;> omega
  unfold dmDisjointFrom
  by_cases heq : min = max
  · -- the last element of one is the first of the other
    rw [if_pos heq]
    refine ⟨false, rfl, fun h => by contradiction, fun hlt1 hlt2 _ => ⟨min, ?_⟩⟩
    by_cases hcase : d1.first < d2.first
    · rw [show min = d2.first by omega]
      exact ⟨(show d1.last = d2.first by omega) ▸ h1.last_mem_elems, h2.first_mem_elems⟩
    · rw [show min = d1.first by omega]
      exact ⟨h1.first_mem_elems, (show d2.last = d1.first by omega) ▸ h2.last_mem_elems⟩
  rw [if_neg heq]
  by_cases hgt : min > max
  · rw [if_pos hgt]
    refine ⟨true, rfl, fun _ x hx => ?_, fun _ _ h => by contradiction⟩
    have := hout x hx
    omega
  rw [if_neg hgt]
  -- either way the loop looks at everything between `min` and `max`
  have hbetween : ∀ {b : Bool}, (b = true ↔ ∀ x, min ≤ x → x ≤ max → ¬ (x ∈ d1.elems ∧ x ∈ d2.elems)) →
      (b = true → ∀ x, ¬ (x ∈ d1.elems ∧ x ∈ d2.elems)) ∧
      (d1.first < d1.last → d2.first < d2.last → b = false → ∃ x, x ∈ d1.elems ∧ x ∈ d2.elems) := by
    intro b hb
    refine ⟨fun h x hx => ?_, fun _ _ h => ?_⟩
    · have := hout x hx
      exact hb.1 h x (by omega) (by omega) hx
    · by_contra hno
      have : b = true := hb.2 fun x _ _ hx => hno ⟨x, hx⟩
      rw [h] at this
      contradiction
  cases hsame : sameBounds d1 d2 with
  | none =>
    obtain ⟨b, hrun, hb⟩ := dmDisjointElms_spec max h1 h2 (by omega)
      (fun x hx hboth => by have := hout x hboth; omega) ((max - min).toNat + 1) min (by omega) (by omega)
      (by push_cast; omega)
    exact ⟨b, hrun, hbetween hb⟩
  | some p =>
    obtain ⟨b1, b2⟩ := p
    obtain ⟨b, hrun, hb⟩ := dmDisjointBv_dvar h1 h2 hsame (show d1.first ≤ min by omega) (show d2.first ≤ min by omega)
      (show min ≤ max by omega) (by omega) (by omega)
    exact ⟨b, hrun, hbetween hb⟩

theorem dmFalse_eq (h : d1.Shape) (x : ℤ) : dmFalse d1 x = .ok (decide (x ∉ d1.elems)) := by
  simp only [dmFalse, dmTrue_eq h, bind, Except.bind, pure, Except.pure, decide_not]

end

/-- One round of the loop of `dm_intersect`. -/
def dmIntersectElm (dy : Dvar) (first : ℤ) (dx : Dvar) (k : ℕ) : Except Stop Dvar := do
  if ← dmTrue dy (first + k) then return dx
  else domainSetFalseAux dx (first + k)

/-- `dm_intersect`: `X` becomes the intersection of `X` and `Y`. -/
def dmIntersect (dx dy : Dvar) : Except Stop Dvar :=
  if dy.type = .it then domainRegionNoint dx dy.first dy.last
  else
    let first := if dy.first < dx.first then dx.first else dy.first
    let last := if dy.last > dx.last then dx.last else dy.last
    if first > last then .error .fail
    else do
      let dx ← domainRegionNoint dx first last
      (List.range (last - first + 1).toNat).foldlM (dmIntersectElm dy first) dx

theorem dmIntersect_keeps {dx dy : Dvar} {v : ℤ} (hx : Keeps dx v) (hy : dy.Shape) (hv : v ∈ dy.elems) :
    ∃ dx', dmIntersect dx dy = .ok dx' ∧ Keeps dx' v := by
  have hxf := hx.first_le
  have hxl := hx.le_last
  have hvy := (Dvar.mem_elems.1 hv).1
  unfold dmIntersect
  by_cases hit : dy.type = .it
  · rw [if_pos hit]
    exact hx.regionNoint hvy.1 hvy.2
  rw [if_neg hit]
  extract_lets first last
  have hf : first ≤ v := by
    simp only [first]
    split_ifs <;> omega
  have hl : v ≤ last := by
    simp only [last]
    split_ifs <;> omega
  rw [if_neg (by omega)]
  obtain ⟨d, hd, hk⟩ := hx.regionNoint hf hl
  simp only [hd, bind, Except.bind]
  apply Loops.exists_foldlM_range (dmIntersectElm dy first) (fun _ d => Keeps d v) _ d hk
  intro k _ d hd
  simp only [dmIntersectElm, dmTrue_eq hy, bind, Except.bind]
  by_cases hmem : first + k ∈ dy.elems
  · rw [if_pos (decide_eq_true hmem)]
    exact ⟨d, rfl, hd⟩
  · rw [if_neg (by simpa using hmem)]
    obtain ⟨d', hd', hk', -⟩ := hd.setFalseAux (e := first + k) fun heq => hmem (heq ▸ hv)
    exact ⟨d', hd', hk'⟩

/-! ## From intervals to vectors -/

def itToBv (d : Dvar) : Dvar := { d with type := .bv (itToBvWords d) }

section
variable {d : Dvar} {v : ℤ}

theorem itToBv_has {x : ℤ} (hx : d.first ≤ x ∧ x ≤ d.last) : (itToBv d).type.has x = true := by
  have hb := itToBvWords_bounds d
  rw [itToBv, DvType.has_bv, BitVector.has_eq_of_holds (itToBvWords_holds d) (by omega)]
  exact decide_eq_true (by omega)

theorem itToBv_elems (hd : d.type = .it) : (itToBv d).elems = d.elems := by
  ext x
  rw [Dvar.mem_elems, Dvar.mem_elems, hd, DvType.has_it]
  exact and_congr_right fun hx => iff_of_true (itToBv_has hx) rfl

theorem itToBv_shape (h : d.Shape) : (itToBv d).Shape := by
  refine ⟨h.le, itToBv_has ⟨le_refl _, h.le⟩, itToBv_has ⟨h.le, le_refl _⟩, fun b hb => ?_⟩
  rw [← DvType.bv.inj hb]
  exact itToBvWords_filled d h.le

theorem itToBv_keeps (h : Keeps d v) (hd : d.type = .it) : Keeps (itToBv d) v := by
  refine ⟨itToBv_shape h.shape, ?_, itToBv_elems hd ▸ h.mem, h.bound⟩
  rw [Dvar.Enough, itToBv_elems hd]
  exact h.enough

theorem itToBv_inv (h : d.Inv) (hd : d.type = .it) : (itToBv d).Inv := by
  refine ⟨(itToBv_shape h.shape).repInv ?_, h.le, h.susp, h.not_ref⟩
  rw [itToBv_elems hd]
  exact h.size_eq

theorem itToBv_dom (hd : d.type = .it) : (itToBv d).dom = d.dom := by
  unfold Dvar.dom
  rw [itToBv_elems hd]
  rfl

end

/-! # Inclusion of domains -/

/-! ## The test -/

/-- The loop over the words, for the words still to come after the current ones. -/
def domainIncludeLoop (ws1 ws2 : List (BitVec 64)) (lastOffset : ℕ) : ℕ → ℕ → BitVec 64 → BitVec 64 → Except Stop Bool
  | 0, _, w1, w2 =>
    let mask := maskFf >>> (64 - lastOffset - 1)
    .ok (~~~(w1 &&& mask) &&& (w2 &&& mask) = 0)
  | k + 1, wPtr, w1, w2 =>
    if ~~~w1 &&& w2 ≠ 0 then .ok false
    else do
      let w1 ← readWord ws1 (wPtr + 1)
      let w2 ← readWord ws2 (wPtr + 1)
      domainIncludeLoop ws1 ws2 lastOffset k (wPtr + 1) w1 w2

def domainIncludeWords (b1 b2 : BitVector) (elm last : ℤ) : Except Stop Bool := do
  let (w1, wPtr, offset) ← wordOffset b1 elm
  let mask := maskFf <<< offset
  let w2 ← readWord b2.words wPtr
  let (_, lastWPtr2, lastOffset) ← wordOffset b2 last
  domainIncludeLoop b1.words b2.words lastOffset (lastWPtr2 - wPtr) wPtr (w1 &&& mask) (w2 &&& mask)

/-- The loop over the elements of the second domain after `elm` and before its last one. -/
def domainIncludeElms (d1 d2 : Dvar) (last : ℤ) : ℕ → ℤ → Except Stop Bool
  | 0, _ => .error .oob
  | fuel + 1, elm =>
    if elm + 1 < last then do
      let elm ← nextElm d2 elm
      if ← dmTrueBvNbt d1 elm then domainIncludeElms d1 d2 last fuel elm else return false
    else return true

def domainIncludeScan (d1 d2 : Dvar) : Except Stop Bool := do
  if ← dmTrueBvNbt d1 d2.first then
    if ← dmTrueBvNbt d1 d2.last then
      domainIncludeElms d1 d2 d2.last ((d2.last - d2.first).toNat + 1) d2.first
    else return false
  else return false

def sameLow (d1 d2 : Dvar) : Option (BitVector × BitVector) :=
  match d1.type, d2.type with
  | .bv b1, .bv b2 => if b1.low = b2.low then some (b1, b2) else none
  | _, _ => none

def domainIncludeBv (d1 d2 : Dvar) : Except Stop Bool :=
  match sameLow d1 d2 with
  | some (b1, b2) => domainIncludeWords b1 b2 d2.first d2.last
  | none => domainIncludeScan d1 d2

def domainInclude (d1 d2 : Dvar) : Except Stop Bool :=
  if d1.size ≥ d2.size ∧ d1.first ≤ d2.first ∧ d1.last ≥ d2.last then
    if d1.type = .it then .ok true else domainIncludeBv d1 d2
  else .ok false

/-- The loop looks for a bit of the second row that the first one lacks, from `o` in the current word up to the last
offset in the last word. -/
theorem domainIncludeLoop_spec (ws1 ws2 : List (BitVec 64)) {lastOffset : ℕ} (hlast : lastOffset < 64) :
    ∀ (k wPtr : ℕ) (w1 w2 : BitVec 64) (o : ℕ), o < 64 → wPtr + k < ws1.length → wPtr + k < ws2.length →
      (∀ i < 64, w1.getLsbD i = (bitAt ws1 (64 * wPtr + i) && decide (o ≤ i))) →
      (∀ i < 64, w2.getLsbD i = (bitAt ws2 (64 * wPtr + i) && decide (o ≤ i))) →
      ∃ b, domainIncludeLoop ws1 ws2 lastOffset k wPtr w1 w2 = .ok b ∧
        (b = true ↔ ∀ x, 64 * wPtr + o ≤ x → x ≤ 64 * (wPtr + k) + lastOffset → bitAt ws2 x = true →
          bitAt ws1 x = true) := by
  intro k
  induction k with
  | zero =>
    intro wPtr w1 w2 o _ _ _ hw1 hw2
    refine ⟨_, rfl, ?_⟩
    rw [decide_eq_true_iff]
    refine not_and_eq_zero.trans ⟨fun h x hx hxl hmem => ?_, fun h i hi hmem => ?_⟩
    · obtain ⟨i, rfl⟩ := Nat.exists_eq_add_of_le (show 64 * wPtr ≤ x by omega)
      have hbit := h i (by omega)
      rw [maskFf, getLsbD_and_ushiftRight hlast, getLsbD_and_ushiftRight hlast, hw1 i (by omega), hw2 i (by omega)]
        at hbit
      simpa [hmem, show o ≤ i by omega, show i ≤ lastOffset by omega] using hbit
    · rw [maskFf, getLsbD_and_ushiftRight hlast, hw2 i hi] at hmem
      simp only [Bool.and_eq_true, decide_eq_true_eq] at hmem
      rw [maskFf, getLsbD_and_ushiftRight hlast, hw1 i hi, h (64 * wPtr + i) (by omega) (by omega) hmem.1.1]
      simp [hmem.1.2, hmem.2]
  | succ k ih =>
    intro wPtr w1 w2 o ho hlt1 hlt2 hw1 hw2
    unfold domainIncludeLoop
    by_cases hand : ~~~w1 &&& w2 = 0
    · rw [if_neg (by simpa using hand)]
      obtain ⟨w1', hread1, hw1'⟩ := readWord_getLsbD ws1 (wPtr + 1) (by omega)
      obtain ⟨w2', hread2, hw2'⟩ := readWord_getLsbD ws2 (wPtr + 1) (by omega)
      obtain ⟨b, hrun, hb⟩ := ih (wPtr + 1) w1' w2' 0 (by omega) (by omega) (by omega) (by simpa using hw1')
        (by simpa using hw2')
      refine ⟨b, by simp only [hread1, hread2, bind, Except.bind, hrun], hb.trans ?_⟩
      refine ⟨fun h x hx hxl hmem => ?_, fun h x hx hxl => h x (by omega) (by omega)⟩
      -- a bit that is missing in the current word would have shown in the test
      by_cases hword : x < 64 * (wPtr + 1)
      · obtain ⟨i, rfl⟩ := Nat.exists_eq_add_of_le (show 64 * wPtr ≤ x by omega)
        have hbit := not_and_eq_zero.1 hand i (by omega)
        rw [hw1 i (by omega), hw2 i (by omega)] at hbit
        simpa [hmem, show o ≤ i by omega] using hbit
      · exact h x (by omega) (by omega) hmem
    · rw [if_pos hand]
      refine ⟨false, rfl, iff_of_false Bool.false_ne_true fun h => hand (not_and_eq_zero.2 fun i hi hmem => ?_)⟩
      rw [hw2 i hi] at hmem
      simp only [Bool.and_eq_true, decide_eq_true_eq] at hmem
      rw [hw1 i hi, h (64 * wPtr + i) (by omega) (by omega) hmem.1]
      simp [hmem.2]

theorem domainIncludeWords_spec {b1 b2 : BitVector} {elm last : ℤ} (hlow : b1.low = b2.low) (helm : b1.low ≤ elm)
    (hle : elm ≤ last) (hlast1 : last < b1.low + 64 * b1.words.length)
    (hlast2 : last < b2.low + 64 * b2.words.length) :
    ∃ b, domainIncludeWords b1 b2 elm last = .ok b ∧
      (b = true ↔ ∀ x, elm ≤ x → x ≤ last → b2.has x = true → b1.has x = true) := by
  obtain ⟨w1, wPtr, o, hoff1, hget1, ho, -, hx1⟩ := wordOffset_eq (b := b1) (x := elm) helm (by omega)
  obtain ⟨w3, wPtr3, o3, hoff3, hget3, ho3, -, hx3⟩ := wordOffset_eq (b := b2) (x := last) (by omega) hlast2
  have hlt3 := (List.getElem?_eq_some_iff.1 hget3).1
  obtain ⟨w2, hread, hw2⟩ := readWord_getLsbD b2.words wPtr (by omega)
  obtain ⟨k, rfl⟩ := Nat.exists_eq_add_of_le (show wPtr ≤ wPtr3 by omega)
  obtain ⟨b, hrun, hb⟩ := domainIncludeLoop_spec b1.words b2.words ho3 k wPtr (w1 &&& maskFf <<< o)
    (w2 &&& maskFf <<< o) o ho (by omega) hlt3
    (fun i hi => by rw [maskFf, getLsbD_and_shiftLeft hi, bitAt_word hget1 hi])
    (fun i hi => by rw [maskFf, getLsbD_and_shiftLeft hi, hw2 i hi])
  refine ⟨b, ?_, hb.trans ?_⟩
  · simp only [domainIncludeWords, hoff1, hread, hoff3, bind, Except.bind, Nat.add_sub_cancel_left, hrun]
  have hhas1 : ∀ x : ℕ, bitAt b1.words x = b1.has (b1.low + x) := fun x => (b1.holds x).symm
  have hhas2 : ∀ x : ℕ, bitAt b2.words x = b2.has (b1.low + x) := fun x => by rw [hlow, b2.holds x]
  refine ⟨fun h x hx hxl => ?_, fun h x hx hxl => ?_⟩
  · have := h (x - b1.low).toNat (by omega) (by omega)
    rwa [hhas1, hhas2, show b1.low + ((x - b1.low).toNat : ℤ) = x by omega] at this
  · rw [hhas1, hhas2]
    exact h (b1.low + x) (by omega) (by omega)

section
variable {d1 d2 : Dvar} {b1 b2 : BitVector}

section
variable (h2 : d2.Shape) (ht1 : d1.type = .bv b1) (hlow : b1.low ≤ d2.first)
  (hup : d2.last < b1.low + 64 * b1.words.length)
include h2 ht1 hlow hup

/-- The loop tests the elements of the second domain after `elm` and before the last one. -/
theorem domainIncludeElms_spec (hlast : b1.has d2.last = true) :
    ∀ (fuel : ℕ) (elm : ℤ), 0 < fuel → d2.first ≤ elm → elm ≤ d2.last → d2.last - elm < fuel →
      ∃ b, domainIncludeElms d1 d2 d2.last fuel elm = .ok b ∧
        (b = true ↔ ∀ x, elm < x → x < d2.last → d2.type.has x = true → b1.has x = true) := by
  intro fuel
  induction fuel with
  | zero =>
    intro elm hpos
    omega
  | succ fuel ih =>
    intro elm _ hfirst hle hlt
    unfold domainIncludeElms
    by_cases hmore : elm + 1 < d2.last
    · rw [if_pos hmore]
      obtain ⟨e, he, hin, hel⟩ := nextElm_eq h2 (show d2.first ≤ elm + 1 by omega) (show elm < d2.last by omega)
      have hge := hin.le
      have htest : dmTrueBvNbt d1 e = .ok (b1.has e) := dmTrueBvNbt_eq ht1 (by omega) (by omega)
      simp only [he, htest, bind, Except.bind]
      by_cases hmem : b1.has e = true
      · rw [if_pos hmem]
        obtain ⟨b, hrun, hb⟩ := ih e (by push_cast at hlt; omega) (by omega) hel (by push_cast at hlt; omega)
        refine ⟨b, hrun, hb.trans ⟨fun h x hx hxl hhas => ?_, fun h x hx hxl => h x (by omega) hxl⟩⟩
        have hex := hin.le_of_mem (show elm + 1 ≤ x by omega) hhas
        by_cases hxe : x = e
        · rwa [hxe]
        · exact h x (by omega) hxl hhas
      · rw [if_neg hmem]
        have hne : e ≠ d2.last := fun h => hmem (h ▸ hlast)
        exact ⟨false, rfl, iff_of_false Bool.false_ne_true fun h => hmem (h e (by omega) (by omega) hin.mem)⟩
    · rw [if_neg hmore]
      exact ⟨true, rfl, iff_of_true rfl fun x hx hxl => by omega⟩

theorem domainIncludeScan_spec : ∃ b, domainIncludeScan d1 d2 = .ok b ∧
      (b = true ↔ ∀ x, d2.first ≤ x → x ≤ d2.last → d2.type.has x = true → b1.has x = true) := by
  have hle := h2.le
  have hfirst : dmTrueBvNbt d1 d2.first = .ok (b1.has d2.first) := dmTrueBvNbt_eq ht1 hlow (by omega)
  have hlast : dmTrueBvNbt d1 d2.last = .ok (b1.has d2.last) := dmTrueBvNbt_eq ht1 (by omega) hup
  simp only [domainIncludeScan, hfirst, hlast, bind, Except.bind]
  by_cases hf : b1.has d2.first = true
  · rw [if_pos hf]
    by_cases hl : b1.has d2.last = true
    · rw [if_pos hl]
      obtain ⟨b, hrun, hb⟩ := domainIncludeElms_spec h2 ht1 hlow hup hl ((d2.last - d2.first).toNat + 1) d2.first
        (by omega) le_rfl hle (by push_cast; omega)
      refine ⟨b, hrun, hb.trans ⟨fun h x hx hxl hhas => ?_, fun h x hx hxl => h x (by omega) (by omega)⟩⟩
      rcases hx.eq_or_lt with rfl | hx
      · exact hf
      · rcases hxl.eq_or_lt with rfl | hxl
        · exact hl
        · exact h x hx hxl hhas
    · rw [if_neg hl]
      exact ⟨false, rfl, iff_of_false Bool.false_ne_true fun h => hl (h _ hle le_rfl h2.last_mem)⟩
  · rw [if_neg hf]
    exact ⟨false, rfl, iff_of_false Bool.false_ne_true fun h => hf (h _ le_rfl hle h2.first_mem)⟩

end

/-! ## The tests decide -/

theorem elems_subset_iff (hf : d1.first ≤ d2.first) (hl : d2.last ≤ d1.last) :
    d2.elems ⊆ d1.elems ↔ ∀ x, d2.first ≤ x → x ≤ d2.last → d2.type.has x = true → d1.type.has x = true := by
  refine ⟨fun h x hx hxl hhas => (Dvar.mem_elems.1 (h (Dvar.mem_elems.2 ⟨⟨hx, hxl⟩, hhas⟩))).2, fun h x hx => ?_⟩
  obtain ⟨⟨hx, hxl⟩, hhas⟩ := Dvar.mem_elems.1 hx
  exact Dvar.mem_elems.2 ⟨⟨by omega, by omega⟩, h x hx hxl hhas⟩

theorem sameLow_eq_some (h : sameLow d1 d2 = some (b1, b2)) :
    d1.type = .bv b1 ∧ d2.type = .bv b2 ∧ b1.low = b2.low := by
  unfold sameLow at h
  cases hd1 : d1.type with
  | it => simp [hd1] at h
  | bv b =>
    cases hd2 : d2.type with
    | it => simp [hd1, hd2] at h
    | bv b' =>
      simp only [hd1, hd2, Option.ite_none_right_eq_some, Option.some.injEq, Prod.mk.injEq] at h
      obtain ⟨hb, rfl, rfl⟩ := h
      exact ⟨rfl, rfl, hb⟩

section
variable (h1 : d1.Shape) (h2 : d2.Shape) (hf : d1.first ≤ d2.first) (hl : d2.last ≤ d1.last)
include h1 h2 hf hl

theorem domainIncludeWords_dvar (hsame : sameLow d1 d2 = some (b1, b2)) :
    ∃ b, domainIncludeWords b1 b2 d2.first d2.last = .ok b ∧ (b = true ↔ d2.elems ⊆ d1.elems) := by
  obtain ⟨ht1, ht2, hlow⟩ := sameLow_eq_some hsame
  have hlow1 := h1.low_le ht1
  have hlt1 := h1.last_lt ht1
  rw [elems_subset_iff hf hl, ht1, ht2]
  exact domainIncludeWords_spec hlow (by omega) h2.le (by omega) (h2.last_lt ht2)

theorem domainIncludeScan_dvar (ht1 : d1.type = .bv b1) :
    ∃ b, domainIncludeScan d1 d2 = .ok b ∧ (b = true ↔ d2.elems ⊆ d1.elems) := by
  have hlow1 := h1.low_le ht1
  have hlt1 := h1.last_lt ht1
  rw [elems_subset_iff hf hl, ht1]
  exact domainIncludeScan_spec h2 ht1 (by omega) (by omega)

theorem domainIncludeBv_spec (ht1 : d1.type = .bv b1) :
    ∃ b, domainIncludeBv d1 d2 = .ok b ∧ (b = true ↔ d2.elems ⊆ d1.elems) := by
  unfold domainIncludeBv
  cases hsame : sameLow d1 d2 with
  | none => exact domainIncludeScan_dvar h1 h2 hf hl ht1
  | some p => exact domainIncludeWords_dvar h1 h2 hf hl hsame

end

theorem domainInclude_spec (h1 : d1.Inv) (h2 : d2.Inv) :
    ∃ b, domainInclude d1 d2 = .ok b ∧ (b = true ↔ d2.elems ⊆ d1.elems) := by
  unfold domainInclude
  by_cases hcover : d1.size ≥ d2.size ∧ d1.first ≤ d2.first ∧ d1.last ≥ d2.last
  · rw [if_pos hcover]
    cases ht1 : d1.type with
    | it =>
      rw [if_pos rfl]
      exact ⟨true, rfl, iff_of_true rfl ((elems_subset_iff hcover.2.1 hcover.2.2).2 fun x _ _ _ => by rw [ht1]; rfl)⟩
    | bv b1 =>
      rw [if_neg (by simp)]
      exact domainIncludeBv_spec h1.shape h2.shape hcover.2.1 hcover.2.2 ht1
  · rw [if_neg hcover]
    refine ⟨false, rfl, iff_of_false Bool.false_ne_true fun h => hcover ⟨?_, ?_, ?_⟩⟩
    · rw [h1.size_eq, h2.size_eq]
      exact_mod_cast Finset.card_le_card h
    · exact (Dvar.mem_elems.1 (h h2.shape.first_mem_elems)).1.1
    · exact (Dvar.mem_elems.1 (h h2.shape.last_mem_elems)).1.2

/-- What the two tests answer on two domains, and that their word-by-word comparisons answer what the scans do. -/
structure TestsDecide (d1 d2 : Dvar) : Prop where
  disjoint : ∃ b, dmDisjoint d1 d2 = .ok b ∧ (b = true ↔ Disjoint d1.elems d2.elems)
  included : ∃ b, domainInclude d1 d2 = .ok b ∧ (b = true ↔ d2.elems ⊆ d1.elems)
  includedBv : ∀ b1, d1.type = .bv b1 → d2.size ≤ d1.size → d1.first ≤ d2.first → d2.last ≤ d1.last →
    ∃ b, domainIncludeBv d1 d2 = .ok b ∧ (b = true ↔ d2.elems ⊆ d1.elems)
  disjointWords : ∀ b1 b2 min max, sameBounds d1 d2 = some (b1, b2) → min = d1.first ⊔ d2.first →
    max = d1.last ⊓ d2.last → min ≤ max →
    dmDisjointBv b1 b2 min max = dmDisjointElms d1 d2 max ((max - min).toNat + 1) min
  includedWords : ∀ b1 b2, sameLow d1 d2 = some (b1, b2) → d1.first ≤ d2.first → d2.last ≤ d1.last →
    domainIncludeWords b1 b2 d2.first d2.last = domainIncludeScan d1 d2

theorem answers_eq {r r' : Except Stop Bool} {P : Prop} (h : ∃ b, r = .ok b ∧ (b = true ↔ P))
    (h' : ∃ b, r' = .ok b ∧ (b = true ↔ P)) : r = r' := by
  obtain ⟨b, rfl, hb⟩ := h
  obtain ⟨b', rfl, hb'⟩ := h'
  rw [Bool.eq_iff_iff.2 (hb.trans hb'.symm)]

theorem dmDisjoint_iff (h1 : d1.Shape) (h2 : d2.Shape) (hlt1 : d1.first < d1.last) (hlt2 : d2.first < d2.last) :
    ∃ b, dmDisjoint d1 d2 = .ok b ∧ (b = true ↔ Disjoint d1.elems d2.elems) := by
  obtain ⟨b, hrun, hdis, hmeet⟩ := dmDisjoint_spec h1 h2
  refine ⟨b, hrun, ?_⟩
  rw [Finset.disjoint_left]
  constructor
  · intro hb x hx1 hx2
    exact hdis hb x ⟨hx1, hx2⟩
  · intro h
    by_contra hb
    obtain ⟨x, hx1, hx2⟩ := hmeet hlt1 hlt2 (Bool.not_eq_true _ ▸ hb)
    exact h hx1 hx2

/-- On two free variables both tests decide, and answer the same word by word as element by element. -/
theorem domainTests_spec (h1 : d1.Inv) (h2 : d2.Inv) (hv1 : d1.var = .susp) (hv2 : d2.var = .susp) :
    TestsDecide d1 d2 := by
  have hs1 := h1.shape
  have hs2 := h2.shape
  refine ⟨dmDisjoint_iff hs1 hs2 (h1.susp hv1) (h2.susp hv2), domainInclude_spec h1 h2, ?_, ?_, ?_⟩
  · intro b1 ht1 _ hf hl
    exact domainIncludeBv_spec hs1 hs2 hf hl ht1
  · intro b1 b2 min max hsame hmin hmax hle
    refine answers_eq (dmDisjointBv_dvar hs1 hs2 hsame (by omega) (by omega) hle (by omega) (by omega))
      (dmDisjointElms_spec max hs1 hs2 (by omega) ?_ _ min (by omega) (by omega) (by push_cast; omega))
    rintro x hx ⟨hx1, hx2⟩
    have hl1 := (Dvar.mem_elems.1 hx1).1.2
    have hl2 := (Dvar.mem_elems.1 hx2).1.2
    omega
  · intro b1 b2 hsame hf hl
    exact answers_eq (domainIncludeWords_dvar hs1 hs2 hf hl hsame)
      (domainIncludeScan_dvar hs1 hs2 hf hl (sameLow_eq_some hsame).1)

theorem domainTests_spec_intervals : TestsDecide (auxCreateDomainVar 0 9) (auxCreateDomainVar 3 5) :=
  domainTests_spec (auxCreateDomainVar_inv (by decide)) (auxCreateDomainVar_inv (by decide)) rfl rfl

end

end Picat
