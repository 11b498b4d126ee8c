import Picat.Domain.Invariant

/-!
# Arc consistency with a scratch array

`c_CLPFD_ADD_AC_ccc` and `c_CLPFD_SUB_AC_ccc` mark the supported values of one variable in an array that they put at the
upper end of the free area between the heap and the control stack, and then exclude the inner values without a mark.
Excluding the first one from an interval allocates a bit vector at the lower end of the same area.

* `addSubAc_meets_iff` : the domains and the free areas for which they do what they are for.
-/

namespace Picat

open BitScan

/-! ## The free area -/

/-- How a call stops: at an access outside the array or a vector, or in `myquit`. -/
inductive Halt where
  | oob
  | quit
  deriving DecidableEq, Repr

/-- The cells from `heap_top` to `local_top`. `bv` is where the vector of this call has been allocated; its words are
those of the variable. -/
structure Area where
  heapTop : ℤ
  localTop : ℤ
  word : ℤ → BitVec 64
  bv : Option ℤ

def smallMargin : ℤ := 1250

def ofDomain {α : Type} : Except Stop α → Except Halt α
  | .ok a => .ok a
  | .error _ => .error .oob

/-- The cell at `a`: the vector begins with `BV_low_val` and `BV_up_val`. -/
def Area.read (area : Area) (d : Dvar) (a : ℤ) : BitVec 64 :=
  match area.bv, d.type with
  | some base, .bv b =>
    if a = base then BitVec.ofInt 64 b.low
    else if a = base + 1 then BitVec.ofInt 64 b.up
    else if base + 2 ≤ a ∧ a < base + 2 + b.words.length then b.words.getD (a - (base + 2)).toNat 0
    else area.word a
  | _, _ => area.word a

/-- `*(ptr+i) = 0` for the inner cells of the array of `size` cells below `local_top`. -/
def Area.clear (area : Area) (size : ℤ) : Area :=
  let ptr := area.localTop - size
  { area with word := fun a => if ptr + 1 ≤ a ∧ a < ptr + size - 1 then 0 else area.word a }

/-- `*(ptr+i) = 1` -/
def Area.mark (area : Area) (size i : ℤ) : Except Halt Area :=
  if 0 ≤ i ∧ i < size then .ok { area with word := Function.update area.word (area.localTop - size + i) 1 }
  else .error .oob

def bvSize (d : Dvar) : ℤ := wordNumber d.last - wordNumber d.first + 1

/-- `domain_set_false_noint`, which allocates when it takes an inner value out of an interval (`it_to_bv_with_hole`). -/
def setFalseIn (area : Area) (d : Dvar) (elm : ℤ) : Except Halt (Area × Dvar) :=
  if d.first < elm ∧ elm < d.last ∧ d.type = .it then
    if area.localTop - (area.heapTop + 2) - bvSize d ≤ smallMargin then .error .quit
    else do
      let d' ← ofDomain (domainSetFalseNoint d elm)
      return ({ area with heapTop := area.heapTop + 2 + bvSize d, bv := some area.heapTop }, d')
  else do
    let d' ← ofDomain (domainSetFalseNoint d elm)
    return (area, d')

/-! ## The propagators -/

/-- The loops that mark `f elm` from `elm` on, up to the first value beyond `up`. -/
def markLoop (low up : ℤ) (f : ℤ → ℤ) (next : ℤ → Except Stop ℤ) (last : ℤ) : ℕ → ℤ → Area → Except Halt Area
  | 0, _, _ => .error .oob
  | fuel + 1, elm, area =>
    if f elm > up then .ok area
    else do
      let area ← area.mark (up - low + 1) (f elm - low)
      if elm = last then return area
      else do
        let elm ← ofDomain (next elm)
        markLoop low up f next last fuel elm area

def loopRounds (d : Dvar) : ℕ := (d.last - d.first).toNat + 1

/-- `domain_next_bv` for the element after `elm`. -/
def nextBv (d : Dvar) (elm : ℤ) : Except Stop ℤ := domainNextBv d (elm + 1)

/-- The loop over `X` with the loop over `Y` in it. -/
def markRounds (X Y : Dvar) (minZ maxZ : ℤ) : ℕ → ℤ → Area → Except Halt Area
  | 0, _, _ => .error .oob
  | fuel + 1, elmX, area => do
    let area ← markLoop minZ maxZ (fun elmY => elmX + elmY) (nextElm Y) Y.last (loopRounds Y) Y.first area
    if elmX = X.last then return area
    else do
      let elmX ← ofDomain (nextBv X elmX)
      markRounds X Y minZ maxZ fuel elmX area

/-- The value of the cell `i` is excluded when the cell is 0. -/
def removeAt (ptr low i : ℤ) (area : Area) (d : Dvar) : Except Halt (Area × Dvar) :=
  if area.read d (ptr + i) = 0 then setFalseIn area d (low + i) else .ok (area, d)

/-- The loop that excludes, at the cell `i` with so many inner cells to go. -/
def removeLoop (ptr low : ℤ) : ℕ → ℤ → Area → Dvar → Except Halt Dvar
  | 0, _, _, d => .ok d
  | k + 1, i, area, d => do
    let (area, d) ← removeAt ptr low i area d
    removeLoop ptr low k (i + 1) area d

/-- The array over the domain of `d`: the marks, and then the values without one. -/
def scratchAc (area : Area) (d : Dvar) (marks : Area → Except Halt Area) : Except Halt Dvar := do
  let size := d.last - d.first + 1
  let area ← marks (area.clear size)
  removeLoop (area.localTop - size) d.first (size - 2).toNat 1 area d

/-- `c_CLPFD_ADD_AC_ccc` : what is left of `Z`. -/
def cClpfdAddAcCcc (fdRegionLow fdRegionUp heapTop localTop : ℤ) (word : ℤ → BitVec 64) (X Y Z : Dvar) :
    Except Halt Dvar :=
  if X.var ≠ .susp then .ok Z
  else if Z.var ≠ .susp then .ok Z
  else if ¬ (Z.first ≥ fdRegionLow ∧ Z.last ≤ fdRegionUp) then .ok Z
  else if localTop - heapTop ≤ Z.last - Z.first + 1 then .ok Z
  else
    scratchAc ⟨heapTop, localTop, word, none⟩ Z fun area =>
      match Y.var with
      | .int elmY => markLoop Z.first Z.last (fun elmX => elmX + elmY) (nextBv X) X.last (loopRounds X) X.first area
      | _ => markRounds X Y Z.first Z.last (loopRounds X) X.first area

/-- `c_CLPFD_SUB_AC_ccc` : what is left of `Y`. There is no test for an `X` that is bound. -/
def cClpfdSubAcCcc (heapTop localTop : ℤ) (word : ℤ → BitVec 64) (Const : ℤ) (X Y : Dvar) : Except Halt Dvar :=
  if Y.var ≠ .susp then .ok Y
  else if localTop - heapTop ≤ Y.last - Y.first + 1 ∨ Y.size > 512 then .ok Y
  else
    scratchAc ⟨heapTop, localTop, word, none⟩ Y fun area =>
      if X.var ≠ .susp then .error .oob
      else markLoop Y.first Y.last (fun elmX => Const - elmX) (nextBv X) X.last (loopRounds X) X.first area

/-! ## Marking -/

/-- The cells of the values of `S` hold 1, and the others of the array are as they were. -/
structure Marked (low up : ℤ) (S : Set ℤ) (area area' : Area) : Prop where
  heapTop : area'.heapTop = area.heapTop
  localTop : area'.localTop = area.localTop
  bv : area'.bv = area.bv
  mem : ∀ v, low ≤ v → v ≤ up → v ∈ S → area'.word (area.localTop - (up - low + 1) + (v - low)) = 1
  notMem : ∀ v, low ≤ v → v ≤ up → v ∉ S →
    area'.word (area.localTop - (up - low + 1) + (v - low)) = area.word (area.localTop - (up - low + 1) + (v - low))

section
variable {low up e v : ℤ} {S T : Set ℤ} {area area₁ area₂ : Area} {d X Y : Dvar} {f : ℤ → ℤ} {next : ℤ → Except Stop ℤ}

theorem Marked.of_out (hS : ∀ v ∈ S, low ≤ v → v ≤ up → False) : Marked low up S area area :=
  ⟨rfl, rfl, rfl, fun v hl hu hv => (hS v hv hl hu).elim, fun _ _ _ _ => rfl⟩

theorem Marked.trans (h₁ : Marked low up S area area₁) (h₂ : Marked low up T area₁ area₂) :
    Marked low up (S ∪ T) area area₂ := by
  refine ⟨h₂.heapTop.trans h₁.heapTop, h₂.localTop.trans h₁.localTop, h₂.bv.trans h₁.bv, fun v hl hu hv => ?_,
    fun v hl hu hv => ?_⟩
  · by_cases hT : v ∈ T
    · rw [← h₁.localTop]
      exact h₂.mem v hl hu hT
    · rw [← h₁.localTop, h₂.notMem v hl hu hT, h₁.localTop]
      exact h₁.mem v hl hu (hv.resolve_right hT)
  · simp only [Set.mem_union, not_or] at hv
    rw [← h₁.localTop, h₂.notMem v hl hu hv.2, h₁.localTop]
    exact h₁.notMem v hl hu hv.1

theorem Marked.congr (h : Marked low up S area area₁) (hST : ∀ v, low ≤ v → v ≤ up → (v ∈ S ↔ v ∈ T)) :
    Marked low up T area area₁ :=
  ⟨h.heapTop, h.localTop, h.bv, fun v hl hu hv => h.mem v hl hu ((hST v hl hu).2 hv),
    fun v hl hu hv => h.notMem v hl hu fun hS => hv ((hST v hl hu).1 hS)⟩

theorem Area.mark_spec (area : Area) (hl : low ≤ v) (hu : v ≤ up) :
    ∃ area', area.mark (up - low + 1) (v - low) = .ok area' ∧ Marked low up {v} area area' := by
  rw [Area.mark, if_pos (by omega)]
  refine ⟨_, rfl, rfl, rfl, rfl, fun w _ _ hw => ?_, fun w _ _ hw => ?_⟩
  · rw [Set.mem_singleton_iff] at hw
    rw [hw]
    exact Function.update_self _ _ _
  · rw [Set.mem_singleton_iff] at hw
    exact Function.update_of_ne (by omega) _ _

theorem Area.mark_oob (size : ℤ) (hv : v < low) : area.mark size (v - low) = .error .oob := by
  rw [Area.mark, if_neg (by omega)]

/-- The loop over a domain marks the values of its elements, when none of them is below the array and those after the
first one beyond it are beyond it too. -/
theorem markLoop_spec (low up : ℤ) (f : ℤ → ℤ) (hd : d.Shape) (hnext : ∀ e, e ≠ d.last → next e = nextElm d e)
    (hlow : ∀ e ∈ d.elems, low ≤ f e) (hup : ∀ e ∈ d.elems, ∀ e' ∈ d.elems, e ≤ e' → up < f e → up < f e') (fuel : ℕ) :
    ∀ (e : ℤ) (area : Area), e ∈ d.elems → d.last - e < fuel →
      ∃ area', markLoop low up f next d.last fuel e area = .ok area' ∧
        Marked low up {v | ∃ x ∈ d.elems, e ≤ x ∧ v = f x} area area' := by
  induction fuel with
  | zero =>
    intro e area he hlt
    have := (Dvar.mem_elems.1 he).1
    omega
  | succ fuel ih =>
    intro e area he hlt
    have hmem := Dvar.mem_elems.1 he
    rw [markLoop]
    by_cases hbeyond : f e > up
    · rw [if_pos hbeyond]
      refine ⟨area, rfl, Marked.of_out fun v hv _ hvu => ?_⟩
      obtain ⟨x, hx, hex, rfl⟩ := hv
      have := hup e he x hx hex hbeyond
      omega
    rw [if_neg hbeyond]
    obtain ⟨area₁, hmark, hmarked⟩ := Area.mark_spec area (hlow e he) (not_lt.1 hbeyond)
    simp only [hmark, bind, Except.bind]
    by_cases hlast : e = d.last
    · rw [if_pos hlast]
      refine ⟨area₁, rfl, hmarked.congr fun v _ _ => ?_⟩
      constructor
      · intro hv
        exact ⟨e, he, le_refl e, hv⟩
      · rintro ⟨x, hx, hex, rfl⟩
        have hle := (Dvar.mem_elems.1 hx).1
        rw [show x = e by omega]
        rfl
    rw [if_neg hlast, hnext e hlast]
    obtain ⟨e', he', hin, hle⟩ := nextElm_eq hd (show d.first ≤ e + 1 by omega) (show e < d.last by omega)
    have hge := hin.le
    have hmem' : e' ∈ d.elems := Dvar.mem_elems.2 ⟨⟨by omega, hle⟩, hin.mem⟩
    obtain ⟨area₂, hrun, hmarked₂⟩ := ih e' area₁ hmem' (by push_cast at hlt; omega)
    rw [he']
    refine ⟨area₂, hrun, (hmarked.trans hmarked₂).congr fun v _ _ => ?_⟩
    constructor
    · rintro (hv | ⟨x, hx, hex, rfl⟩)
      · exact ⟨e, he, le_refl e, hv⟩
      · exact ⟨x, hx, by omega, rfl⟩
    · rintro ⟨x, hx, hex, rfl⟩
      rcases hex.eq_or_lt with rfl | hlt'
      · exact .inl rfl
      · exact .inr ⟨x, hx, hin.le_of_mem hlt' (Dvar.mem_elems.1 hx).2, rfl⟩

theorem markLoop_oob (last : ℤ) (fuel : ℕ) (hlow : f e < low) (hup : f e ≤ up) :
    markLoop low up f next last (fuel + 1) e area = .error .oob := by
  rw [markLoop, if_neg (not_lt.2 hup), Area.mark_oob _ hlow]
  rfl

theorem nextBv_eq {b : BitVector} (hX : X.type = .bv b) (e : ℤ) : nextBv X e = nextElm X e := by
  rw [nextBv, nextElm, if_neg (by simp [hX])]

theorem markRounds_spec {b : BitVector} (hX : X.Shape) (hbv : X.type = .bv b) (hY : Y.Shape)
    (hlow : ∀ x ∈ X.elems, ∀ y ∈ Y.elems, low ≤ x + y) (fuel : ℕ) :
    ∀ (e : ℤ) (area : Area), e ∈ X.elems → X.last - e < fuel → ∃ area', markRounds X Y low up fuel e area = .ok area' ∧
        Marked low up {v | ∃ x ∈ X.elems, e ≤ x ∧ ∃ y ∈ Y.elems, v = x + y} area area' := by
  induction fuel with
  | zero =>
    intro e area he hlt
    have := (Dvar.mem_elems.1 he).1
    omega
  | succ fuel ih =>
    intro e area he hlt
    have hmem := Dvar.mem_elems.1 he
    have hYle := hY.le
    obtain ⟨area₁, hrun₁, hmarked₁⟩ := markLoop_spec low up (fun y => e + y) hY (fun _ _ => rfl)
      (hlow e he) (fun y _ y' _ hyy hy => by omega) (loopRounds Y) Y.first area hY.first_mem_elems
      (by unfold loopRounds; omega)
    have hfirst : ∀ y ∈ Y.elems, Y.first ≤ y := fun y hy => (Dvar.mem_elems.1 hy).1.1
    simp only [markRounds, hrun₁, bind, Except.bind]
    by_cases hlast : e = X.last
    · rw [if_pos hlast]
      refine ⟨area₁, rfl, hmarked₁.congr fun v _ _ => ?_⟩
      constructor
      · rintro ⟨y, hy, -, rfl⟩
        exact ⟨e, he, le_refl e, y, hy, rfl⟩
      · rintro ⟨x, hx, hex, y, hy, rfl⟩
        have hle := (Dvar.mem_elems.1 hx).1
        exact ⟨y, hy, hfirst y hy, by omega⟩
    rw [if_neg hlast, nextBv_eq hbv]
    obtain ⟨e', he', hin, hle⟩ := nextElm_eq hX (show X.first ≤ e + 1 by omega) (show e < X.last by omega)
    have hge := hin.le
    have hmem' : e' ∈ X.elems := Dvar.mem_elems.2 ⟨⟨by omega, hle⟩, hin.mem⟩
    obtain ⟨area₂, hrun₂, hmarked₂⟩ := ih e' area₁ hmem' (by push_cast at hlt; omega)
    rw [he']
    refine ⟨area₂, hrun₂, (hmarked₁.trans hmarked₂).congr fun v _ _ => ?_⟩
    constructor
    · rintro (⟨y, hy, -, rfl⟩ | ⟨x, hx, hex, y, hy, rfl⟩)
      · exact ⟨e, he, le_refl e, y, hy, rfl⟩
      · exact ⟨x, hx, by omega, y, hy, rfl⟩
    · rintro ⟨x, hx, hex, y, hy, rfl⟩
      rcases hex.eq_or_lt with rfl | hlt'
      · exact .inl ⟨y, hy, hfirst y hy, rfl⟩
      · exact .inr ⟨x, hx, hin.le_of_mem hlt' (Dvar.mem_elems.1 hx).2, y, hy, rfl⟩

end

/-! ## Excluding -/

/-- The cell of `v` has been taken for the vector when the loop comes to it: an interval has lost a value before. -/
def Hidden (area : Area) (d : Dvar) (S : Set ℤ) (v : ℤ) : Prop :=
  d.type = .it ∧ (∃ u, d.first < u ∧ u < v ∧ u ∉ S) ∧
    area.localTop - (d.last - d.first + 1) + (v - d.first) < area.heapTop + 2 + bvSize d

/-- Before the loop: the array lies in the free area, and its inner cells are 0 where the value is not in `S`. -/
structure Scratch (area : Area) (d : Dvar) (S : Set ℤ) : Prop where
  inv : d.Inv
  var : d.var = .susp
  bv : area.bv = none
  free : d.last - d.first + 1 < area.localTop - area.heapTop
  word : ∀ v, d.first < v → v < d.last →
    (area.word (area.localTop - (d.last - d.first + 1) + (v - d.first)) = 0 ↔ v ∉ S)

def NoVector (area : Area) (d : Dvar) (S : Set ℤ) (v : ℤ) (area' : Area) (d' : Dvar) : Prop :=
  area' = area ∧ (d'.type = .it ↔ d.type = .it) ∧ (d.type = .it → ∀ u, d.first < u → u < v → u ∈ S)

def HasVector (area : Area) (d : Dvar) (S : Set ℤ) (v : ℤ) (area' : Area) (d' : Dvar) : Prop :=
  area'.bv = some area.heapTop ∧ area'.localTop = area.localTop ∧ area'.word = area.word ∧
    d.type = .it ∧ smallMargin + 2 + bvSize d < area.localTop - area.heapTop ∧ (∃ u, d.first < u ∧ u < v ∧ u ∉ S) ∧
    ∃ b, d'.type = .bv b ∧ b.low = wordNumber d.first * 64 ∧ (b.words.length : ℤ) = bvSize d

/-- The loop has come to `v`: the values before it that are not in `S` are gone, but for those that were hidden. -/
structure Removing (area : Area) (d : Dvar) (S : Set ℤ) (v : ℤ) (area' : Area) (d' : Dvar) : Prop where
  inv : d'.Inv
  var : d'.var = .susp
  first : d'.first = d.first
  last : d'.last = d.last
  mem : ∀ x, x ∈ d'.elems ↔ x ∈ d.elems ∧ ¬ (d.first < x ∧ x < v ∧ x ∉ S ∧ ¬ Hidden area d S x)
  vector : NoVector area d S v area' d' ∨ HasVector area d S v area' d'

section
variable {area area' : Area} {d d' : Dvar} {S : Set ℤ} {v e : ℤ} {b : BitVector}

theorem bvSize_eq (d : Dvar) : bvSize d = d.last / 64 - d.first / 64 + 1 := by
  unfold bvSize
  rw [wordNumber_eq, wordNumber_eq]

theorem BitVector.word_ne_zero {k : ℕ} (hk : b.low + 64 * k ≤ v) (hlt : v < b.low + 64 * k + 64) (hv : b.has v = true) :
    b.words.getD k 0 ≠ 0 := by
  have hbit : bitAt b.words (v - b.low).toNat = true := by
    simp only [BitVector.has, Bool.and_eq_true] at hv
    exact hv.2
  have hlen := lt_of_bitAt hbit
  have hklt : k < b.words.length := by omega
  have hget : b.words[k]? = some b.words[k] := List.getElem?_eq_getElem hklt
  rw [show (v - b.low).toNat = 64 * k + (v - b.low - 64 * k).toNat by omega, bitAt_word hget (by omega)] at hbit
  rw [List.getD_eq_getElem?_getD, hget, Option.getD_some]
  intro hzero
  rw [hzero] at hbit
  simp at hbit

theorem setFalseNoint_inner (h : d.Inv) (hvar : d.var = .susp) (hf : d.first < e) (hl : e < d.last) :
    ∃ d' b, domainSetFalseNoint d e = .ok d' ∧ d'.Inv ∧ d'.var = .susp ∧ d'.first = d.first ∧ d'.last = d.last ∧
      d'.elems = d.elems.erase e ∧ d'.type = .bv b ∧ (∀ b₀, d.type = .bv b₀ → b.low = b₀.low ∧
        b.words.length = b₀.words.length) ∧
      (d.type = .it → b.low = wordNumber d.first * 64 ∧ (b.words.length : ℤ) = bvSize d) := by
  obtain ⟨b, s, hr, hfill, hrange, -, -⟩ := inner_elm_removes h.shape hf hl
  have hrun : domainSetFalseNoint d e = .ok { d with type := .bv b, size := s } := by
    rw [domainSetFalseNoint, if_pos ⟨hf, hl⟩, hr]
  rcases h.setFalseAux e with ⟨-, hint⟩ | ⟨d', haux, hinv, hdom, -⟩
  · rw [hvar] at hint
    contradiction
  have hsame : domainSetFalseAux d e = domainSetFalseNoint d e := by simp only [domainSetFalseAux, hvar]
  rw [hsame, hrun] at haux
  obtain rfl := Except.ok.inj haux
  have hvar' : Dvar.var { d with type := .bv b, size := s } = .susp := hvar
  rw [Dvar.dom_susp hvar, Dvar.dom_susp hvar'] at hdom
  refine ⟨_, b, hrun, hinv, hvar, rfl, rfl, hdom, rfl, fun b₀ hb₀ => ?_, fun hit => ?_⟩
  · obtain ⟨b', hb', hlow, hup⟩ := hrange b₀ hb₀
    obtain rfl := DvType.bv.inj hb'
    have hfill₀ := h.shape.filled b₀ hb₀
    unfold BitVector.Filled at hfill hfill₀
    exact ⟨hlow, by omega⟩
  · rw [if_pos hit] at hr
    simp only [itToBvWithHole, storeWord, bind, Except.bind] at hr
    split at hr
    · contradiction
    · next words hwords =>
        split at hwords
        · have htype := congrArg Dvar.type (Except.ok.inj hr)
          have hb : b = { itToBvWords d with words := words } := (DvType.bv.inj htype).symm
          have hw := Except.ok.inj hwords
          have hle := h.le
          rw [hb, ← hw]
          refine ⟨rfl, ?_⟩
          simp only [List.length_set, itToBvWords, List.length_replicate]
          rw [← bvSize, bvSize_eq]
          omega
        · contradiction

theorem Removing.start (h : Scratch area d S) : Removing area d S (d.first + 1) area d := by
  refine ⟨h.inv, h.var, rfl, rfl, fun x => ?_, .inl ⟨rfl, Iff.rfl, fun _ u hu hlt => by omega⟩⟩
  constructor
  · exact fun hx => ⟨hx, fun hgone => by omega⟩
  · exact fun hx => hx.1

theorem NoVector.not_hidden (h : NoVector area d S v area' d') : ¬ Hidden area d S v := by
  rintro ⟨hit, ⟨u, hu, huv, hout⟩, -⟩
  exact hout (h.2.2 hit u hu huv)

theorem Removing.word_ne_zero (hr : Removing area d S v area' d') (hit : d.type = .it) (hv : d.first < v ∧ v < d.last)
    (hb : d'.type = .bv b) (hlow : b.low = wordNumber d.first * 64) (hlen : (b.words.length : ℤ) = bvSize d) {k : ℕ}
    (hk : k < b.words.length) (hkv : v - d.first ≤ k + 1) : b.words.getD k 0 ≠ 0 := by
  rw [wordNumber_eq] at hlow
  rw [bvSize_eq] at hlen
  have hhas : ∀ x ∈ d'.elems, b.has x = true := by
    intro x hx
    have hmem := (Dvar.mem_elems.1 hx).2
    rwa [hb] at hmem
  by_cases hzero : k = 0
  · -- the first word has the lower bound
    have hfirst := hhas d'.first hr.inv.shape.first_mem_elems
    rw [hr.first] at hfirst
    exact BitVector.word_ne_zero (by omega) (by omega) hfirst
  · have hx : min (b.low + 64 * k + 63) d.last ∈ d'.elems := by
      rw [hr.mem]
      refine ⟨Dvar.mem_elems.2 ⟨by omega, by rw [hit]; rfl⟩, fun hgone => ?_⟩
      omega
    exact BitVector.word_ne_zero (by omega) (by omega) (hhas _ hx)

theorem Removing.read_eq (h : Scratch area d S) (hr : Removing area d S v area' d') (hv : d.first < v ∧ v < d.last) :
    area'.read d' (area.localTop - (d.last - d.first + 1) + (v - d.first)) = 0 ↔ v ∉ S ∧ ¬ Hidden area d S v := by
  have hfree := h.free
  rcases hr.vector with hno | ⟨hbv, -, hword, hit, -, hlost, b, hb, hlow, hlen⟩
  · rw [hno.1, Area.read, h.bv]
    exact (h.word v hv.1 hv.2).trans (and_iff_left hno.not_hidden).symm
  · simp only [Area.read, hbv, hb, hword]
    rw [if_neg (by omega), if_neg (by omega)]
    by_cases hcov : area.localTop - (d.last - d.first + 1) + (v - d.first) < area.heapTop + 2 + bvSize d
    · have hne := hr.word_ne_zero hit hv hb hlow hlen
        (k := (area.localTop - (d.last - d.first + 1) + (v - d.first) - (area.heapTop + 2)).toNat) (by omega) (by omega)
      rw [if_pos (by omega)]
      exact iff_of_false hne fun hout => hout.2 ⟨hit, hlost, hcov⟩
    · rw [if_neg (by omega), h.word v hv.1 hv.2]
      exact (and_iff_left fun hhid => hcov hhid.2.2).symm

theorem Removing.mem_succ (hr : Removing area d S v area' d') (hkeep : v ∈ S ∨ Hidden area d S v) (x : ℤ) :
    x ∈ d'.elems ↔ x ∈ d.elems ∧ ¬ (d.first < x ∧ x < v + 1 ∧ x ∉ S ∧ ¬ Hidden area d S x) := by
  rw [hr.mem]
  refine and_congr_right fun _ => not_congr ⟨fun hgone => ⟨hgone.1, by omega, hgone.2.2⟩, fun hgone => ?_⟩
  refine ⟨hgone.1, lt_of_le_of_ne (by omega) ?_, hgone.2.2⟩
  rintro rfl
  exact hkeep.elim hgone.2.2.1 hgone.2.2.2

theorem Removing.mem_erase (hr : Removing area d S v area' d') (hv : d.first < v) (hout : v ∉ S ∧ ¬ Hidden area d S v)
    (x : ℤ) :
    x ∈ d'.elems.erase v ↔ x ∈ d.elems ∧ ¬ (d.first < x ∧ x < v + 1 ∧ x ∉ S ∧ ¬ Hidden area d S x) := by
  rw [Finset.mem_erase, hr.mem]
  constructor
  · rintro ⟨hne, hx, hnot⟩
    exact ⟨hx, fun hgone => hnot ⟨hgone.1, by omega, hgone.2.2⟩⟩
  · rintro ⟨hx, hnot⟩
    refine ⟨?_, hx, fun hgone => hnot ⟨hgone.1, by omega, hgone.2.2⟩⟩
    rintro rfl
    exact hnot ⟨hv, by omega, hout⟩

section
variable (h : Scratch area d S) (hr : Removing area d S v area' d') (hv : d.first < v ∧ v < d.last)
include h hr hv

theorem Removing.setFalseIn_spec (hout : v ∉ S ∧ ¬ Hidden area d S v) :
    (∃ area'' d'', setFalseIn area' d' v = .ok (area'', d'') ∧ Removing area d S (v + 1) area'' d'') ∨
      (setFalseIn area' d' v = .error .quit ∧ d.type = .it ∧
        area.localTop - area.heapTop ≤ smallMargin + 2 + bvSize d) := by
  have hfirst := hr.first
  have hlast := hr.last
  obtain ⟨d'', b, hrun, hinv, hvar, hf, hl, helems, hb, hbv, hit⟩ :=
    setFalseNoint_inner hr.inv hr.var (show d'.first < v by omega) (show v < d'.last by omega)
  have hsize : bvSize d' = bvSize d := by rw [bvSize, bvSize, hfirst, hlast]
  have hmem : ∀ x, x ∈ d''.elems ↔ x ∈ d.elems ∧ ¬ (d.first < x ∧ x < v + 1 ∧ x ∉ S ∧ ¬ Hidden area d S x) := by
    intro x
    rw [helems]
    exact hr.mem_erase hv.1 hout x
  have hnext : ∀ area'', NoVector area d S (v + 1) area'' d'' ∨ HasVector area d S (v + 1) area'' d'' →
      Removing area d S (v + 1) area'' d'' := fun area'' hvec =>
    ⟨hinv, hvar, hf.trans hfirst, hl.trans hlast, hmem, hvec⟩
  unfold setFalseIn
  rw [hrun]
  rcases hr.vector with ⟨rfl, htype, hall⟩ | ⟨hbase, htop, hword, hdit, hmargin, hlost, b', hb', hlow, hlen⟩
  · by_cases hdit : d.type = .it
    · have hd'it := htype.2 hdit
      rw [if_pos ⟨by omega, by omega, hd'it⟩, hsize]
      by_cases hmargin : area'.localTop - (area'.heapTop + 2) - bvSize d ≤ smallMargin
      · rw [if_pos hmargin]
        exact .inr ⟨rfl, hdit, by omega⟩
      · rw [if_neg hmargin]
        refine .inl ⟨_, d'', rfl, hnext _ (.inr ⟨rfl, rfl, rfl, hdit, by omega, ⟨v, hv.1, by omega, hout.1⟩, b, hb, ?_⟩)⟩
        obtain ⟨hlow, hlen⟩ := hit hd'it
        rw [hlow, hlen, hsize, hfirst]
        exact ⟨rfl, rfl⟩
    · have hd'it : d'.type ≠ .it := fun heq => hdit (htype.1 heq)
      rw [if_neg fun hin => hd'it hin.2.2]
      refine .inl ⟨area', d'', rfl, hnext _ (.inl ⟨rfl, ?_, fun heq => absurd heq hdit⟩)⟩
      rw [hb]
      exact iff_of_false (by simp) hdit
  · rw [if_neg fun hin => by rw [hb'] at hin; exact absurd hin.2.2 (by simp)]
    obtain ⟨hlow', hlen'⟩ := hbv b' hb'
    obtain ⟨u, hu, huv, huS⟩ := hlost
    refine .inl ⟨area', d'', rfl, hnext _ (.inr ⟨hbase, htop, hword, hdit, hmargin, ⟨u, hu, by omega, huS⟩, b, hb, ?_⟩)⟩
    rw [hlow', hlen']
    exact ⟨hlow, hlen⟩

theorem Removing.step :
    (∃ area'' d'', removeAt (area.localTop - (d.last - d.first + 1)) d.first (v - d.first) area' d' = .ok (area'', d'') ∧
        Removing area d S (v + 1) area'' d'') ∨
      (removeAt (area.localTop - (d.last - d.first + 1)) d.first (v - d.first) area' d' = .error .quit ∧ d.type = .it ∧
        v ∉ S ∧ area.localTop - area.heapTop ≤ smallMargin + 2 + bvSize d) := by
  have hread := hr.read_eq h hv
  rw [removeAt, show d.first + (v - d.first) = v by omega]
  by_cases hzero : area'.read d' (area.localTop - (d.last - d.first + 1) + (v - d.first)) = 0
  · have hout := hread.1 hzero
    rw [if_pos hzero]
    rcases hr.setFalseIn_spec h hv hout with hok | ⟨hquit, hit, hmargin⟩
    · exact .inl hok
    · exact .inr ⟨hquit, hit, hout.1, hmargin⟩
  · have hkeep : v ∈ S ∨ Hidden area d S v := by
      by_contra hnot
      rw [not_or] at hnot
      exact hzero (hread.2 ⟨hnot.1, not_not.1 fun hhid => hhid hnot.2⟩)
    rw [if_neg hzero]
    refine .inl ⟨area', d', rfl, hr.inv, hr.var, hr.first, hr.last, hr.mem_succ hkeep, ?_⟩
    rcases hr.vector with hno | ⟨hbase, htop, hword, hit, hmargin, ⟨u, hu, huv, huS⟩, hb⟩
    · have hvS := hkeep.resolve_right hno.not_hidden
      refine .inl ⟨hno.1, hno.2.1, fun hit u hu huv => ?_⟩
      by_cases heq : u = v
      · rwa [heq]
      · exact hno.2.2 hit u hu (by omega)
    · exact .inr ⟨hbase, htop, hword, hit, hmargin, ⟨u, hu, by omega, huS⟩, hb⟩

end

theorem removeLoop_spec (h : Scratch area d S) (k : ℕ) :
    ∀ (v : ℤ) (area' : Area) (d' : Dvar), v + k = d.last → d.first < v → Removing area d S v area' d' →
      (∃ area'' d'', removeLoop (area.localTop - (d.last - d.first + 1)) d.first k (v - d.first) area' d' = .ok d'' ∧
        Removing area d S d.last area'' d'') ∨
      (removeLoop (area.localTop - (d.last - d.first + 1)) d.first k (v - d.first) area' d' = .error .quit ∧
        d.type = .it ∧ (∃ u, d.first < u ∧ u < d.last ∧ u ∉ S) ∧
          area.localTop - area.heapTop ≤ smallMargin + 2 + bvSize d) := by
  induction k with
  | zero =>
    intro v area' d' hk _ hr
    rw [Nat.cast_zero, add_zero] at hk
    exact .inl ⟨area', d', rfl, hk ▸ hr⟩
  | succ k ih =>
    intro v area' d' hk hv hr
    push_cast at hk
    rw [removeLoop, show v - d.first + 1 = v + 1 - d.first by omega]
    rcases hr.step h ⟨hv, by omega⟩ with ⟨area'', d'', hrun, hr'⟩ | ⟨hquit, hit, hout, hmargin⟩
    · rw [hrun]
      exact ih (v + 1) area'' d'' (by omega) (by omega) hr'
    · rw [hquit]
      exact .inr ⟨rfl, hit, ⟨v, hv, by omega, hout⟩, hmargin⟩

theorem Scratch.of_marked (h : d.Inv) (hvar : d.var = .susp) (hbv : area.bv = none)
    (hfree : d.last - d.first + 1 < area.localTop - area.heapTop)
    (hm : Marked d.first d.last S (area.clear (d.last - d.first + 1)) area') : Scratch area' d S := by
  have hheap : area'.heapTop = area.heapTop := hm.heapTop
  have htop : area'.localTop = area.localTop := hm.localTop
  refine ⟨h, hvar, hm.bv.trans hbv, by rw [hheap, htop]; exact hfree, fun v hf hl => ?_⟩
  have hzero : (area.clear (d.last - d.first + 1)).word (area.localTop - (d.last - d.first + 1) + (v - d.first)) = 0 :=
    if_pos (by omega)
  rw [htop]
  by_cases hv : v ∈ S
  · have hone := hm.mem v hf.le hl.le hv
    rw [show (area.clear (d.last - d.first + 1)).localTop = area.localTop from rfl] at hone
    rw [hone]
    exact iff_of_false (by decide) (not_not.2 hv)
  · have hsame := hm.notMem v hf.le hl.le hv
    rw [show (area.clear (d.last - d.first + 1)).localTop = area.localTop from rfl, hzero] at hsame
    rw [hsame]
    exact iff_of_true rfl hv

end

/-! ## What the calls are for -/

/-- The call returns, keeps the values of `S` and excludes the inner values that are not in `S`. -/
def AcMeets (d : Dvar) (S : Set ℤ) (r : Except Halt Dvar) : Prop :=
  ∃ d', r = .ok d' ∧ (∀ v ∈ d.dom, v ∈ S → v ∈ d'.dom) ∧ ∀ v ∈ d.dom, d.first < v → v < d.last → v ∉ S → v ∉ d'.dom

/-- When an interval has to lose an inner value, there is room for its vector, and the vector does not reach the cell of
another one. -/
def ScratchFits (free : ℤ) (d : Dvar) (S : Set ℤ) : Prop :=
  d.type = .it → ∀ u, d.first < u → u < d.last → u ∉ S → smallMargin + 2 + bvSize d < free ∧
      ∀ v, u < v → v < d.last → v ∉ S → 2 + bvSize d ≤ free - (d.last - d.first + 1) + (v - d.first)

section
variable {area area₁ : Area} {d : Dvar} {S : Set ℤ} {marks : Area → Except Halt Area}

theorem Scratch.meets_iff (h : Scratch area d S) :
    AcMeets d S (removeLoop (area.localTop - (d.last - d.first + 1)) d.first (d.last - d.first + 1 - 2).toNat 1 area d) ↔
      ScratchFits (area.localTop - area.heapTop) d S := by
  have hlt := h.inv.susp h.var
  have hdom : d.dom = d.elems := Dvar.dom_susp h.var
  have hin : d.type = .it → ∀ v, d.first < v → v < d.last → v ∈ d.elems := fun hit v hf hl =>
    Dvar.mem_elems.2 ⟨⟨hf.le, hl.le⟩, by rw [hit]; rfl⟩
  have hloop := removeLoop_spec h (d.last - d.first + 1 - 2).toNat (d.first + 1) area d (by omega) (by omega)
    (Removing.start h)
  rw [show d.first + 1 - d.first = 1 by omega] at hloop
  rcases hloop with ⟨area', d', hrun, hr⟩ | ⟨hquit, hit, ⟨u, hf, hl, hu⟩, hmargin⟩
  · have hdom' : d'.dom = d'.elems := Dvar.dom_susp hr.var
    rw [hrun]
    constructor
    · rintro ⟨d'', heq, -, hgone⟩ hit u hf hl hu
      obtain rfl := Except.ok.inj heq
      rcases hr.vector with hno | ⟨-, -, -, -, hmargin, -, -⟩
      · exact absurd (hno.2.2 hit u hf hl) hu
      refine ⟨hmargin, fun v huv hvl hv => ?_⟩
      have hvin := hin hit v (by omega) hvl
      have hout := hgone v (hdom ▸ hvin) (by omega) hvl hv
      by_contra hover
      rw [hdom', hr.mem] at hout
      exact hout ⟨hvin, fun hnot => hnot.2.2.2 ⟨hit, ⟨u, hf, huv, hu⟩, by omega⟩⟩
    · intro hfits
      refine ⟨d', rfl, fun v hv hvS => ?_, fun v hv hf hl hvS => ?_⟩
      · rw [hdom', hr.mem]
        exact ⟨hdom ▸ hv, fun hnot => hnot.2.2.1 hvS⟩
      · rw [hdom', hr.mem]
        rintro ⟨-, hnot⟩
        refine hnot ⟨hf, hl, hvS, ?_⟩
        rintro ⟨hit, ⟨u, huf, huv, hu⟩, hcov⟩
        have := (hfits hit u huf (by omega) hu).2 v huv hl hvS
        omega
  · rw [hquit]
    constructor
    · rintro ⟨d', heq, -⟩
      contradiction
    · intro hfits
      have := (hfits hit u hf hl hu).1
      omega

theorem scratchAc_meets_iff (h : d.Inv) (hvar : d.var = .susp) (hbv : area.bv = none)
    (hfree : d.last - d.first + 1 < area.localTop - area.heapTop)
    (hrun : marks (area.clear (d.last - d.first + 1)) = .ok area₁)
    (hm : Marked d.first d.last S (area.clear (d.last - d.first + 1)) area₁) :
    AcMeets d S (scratchAc area d marks) ↔ ScratchFits (area.localTop - area.heapTop) d S := by
  have hscratch := Scratch.of_marked h hvar hbv hfree hm
  have hheap : area₁.heapTop = area.heapTop := hm.heapTop
  have htop : area₁.localTop = area.localTop := hm.localTop
  have hiff := hscratch.meets_iff
  rw [hheap, htop] at hiff
  simp only [scratchAc, hrun, bind, Except.bind, htop]
  exact hiff

end

/-! ## The two propagators -/

/-- The bounds of a term: both are the integer that it is bound to. -/
def Dvar.bounds (d : Dvar) : ℤ × ℤ :=
  match d.var with
  | .int v => (v, v)
  | _ => (d.first, d.last)

/-- `x + y = z` is interval consistent: each bound has values of the other two within their bounds. -/
structure BoundsConsistent (x y z : ℤ × ℤ) : Prop where
  ofX : ∀ a, a = x.1 ∨ a = x.2 → ∃ b c, (y.1 ≤ b ∧ b ≤ y.2) ∧ (z.1 ≤ c ∧ c ≤ z.2) ∧ a + b = c
  ofY : ∀ b, b = y.1 ∨ b = y.2 → ∃ a c, (x.1 ≤ a ∧ a ≤ x.2) ∧ (z.1 ≤ c ∧ c ≤ z.2) ∧ a + b = c
  ofZ : ∀ c, c = z.1 ∨ c = z.2 → ∃ a b, (x.1 ≤ a ∧ a ≤ x.2) ∧ (y.1 ≤ b ∧ b ≤ y.2) ∧ a + b = c

/-- `X` is a variable over a bit vector, and `d`, whose values are marked, is a variable. -/
structure AcInput (X d : Dvar) : Prop where
  invX : X.Inv
  varX : X.var = .susp
  bvX : X.type ≠ .it
  inv : d.Inv
  var : d.var = .susp

/-- The values `x + y`. -/
def sums (X Y : Dvar) : Set ℤ := {v | ∃ x ∈ X.dom, ∃ y ∈ Y.dom, v = x + y}

/-- The values `Const - x`. -/
def differences (Const : ℤ) (X : Dvar) : Set ℤ := {v | ∃ x ∈ X.dom, v = Const - x}

section
variable {fdRegionLow fdRegionUp heapTop localTop Const : ℤ} {word : ℤ → BitVec 64} {X Y Z : Dvar}

theorem Dvar.bounds_int {v : ℤ} (hv : Y.var = .int v) : Y.bounds = (v, v) := by
  simp only [Dvar.bounds, hv]

theorem Dvar.bounds_susp (hv : Y.var = .susp) : Y.bounds = (Y.first, Y.last) := by
  simp only [Dvar.bounds, hv]

theorem cClpfdAddAcCcc_eq (h : AcInput X Z) (hlow : fdRegionLow ≤ Z.first) (hup : Z.last ≤ fdRegionUp)
    (hfree : Z.last - Z.first + 1 < localTop - heapTop) :
    cClpfdAddAcCcc fdRegionLow fdRegionUp heapTop localTop word X Y Z =
      scratchAc ⟨heapTop, localTop, word, none⟩ Z fun area =>
        match Y.var with
        | .int elmY => markLoop Z.first Z.last (fun elmX => elmX + elmY) (nextBv X) X.last (loopRounds X) X.first area
        | _ => markRounds X Y Z.first Z.last (loopRounds X) X.first area := by
  rw [cClpfdAddAcCcc, if_neg (not_not.2 h.varX), if_neg (not_not.2 h.var), if_neg (not_not.2 ⟨hlow, hup⟩),
    if_neg (by omega)]

/-- The marks of the addition, when the lower bounds of `X` and `Y` do not add up to less than that of `Z`. -/
theorem addMarks_spec (h : AcInput X Z) (hY : Y.Inv) (hsum : Z.first ≤ X.first + Y.bounds.1) (area : Area) :
    ∃ area', (match Y.var with
        | .int elmY => markLoop Z.first Z.last (fun elmX => elmX + elmY) (nextBv X) X.last (loopRounds X) X.first area
        | _ => markRounds X Y Z.first Z.last (loopRounds X) X.first area) = .ok area' ∧
      Marked Z.first Z.last (sums X Y) area area' := by
  obtain ⟨b, hb⟩ := Dvar.exists_bv h.bvX
  have hX := h.invX.shape
  have hXle := hX.le
  have hXdom : X.dom = X.elems := Dvar.dom_susp h.varX
  have hXfirst : ∀ x ∈ X.elems, X.first ≤ x := fun x hx => (Dvar.mem_elems.1 hx).1.1
  have hfuel : X.last - X.first < loopRounds X := by
    unfold loopRounds
    omega
  cases hv : Y.var with
  | int elmY =>
    rw [Dvar.bounds_int hv] at hsum
    obtain ⟨area', hrun, hm⟩ := markLoop_spec Z.first Z.last (fun elmX => elmX + elmY) hX (fun e _ => nextBv_eq hb e)
      (fun x hx => by have := hXfirst x hx; omega) (fun x _ x' _ hxx hx => by omega) (loopRounds X) X.first area
      hX.first_mem_elems hfuel
    refine ⟨area', hrun, hm.congr fun v _ _ => ?_⟩
    simp only [sums, Set.mem_ofPred_eq, hXdom, Dvar.dom_int hv, Finset.mem_singleton, exists_eq_left]
    constructor
    · rintro ⟨x, hx, -, rfl⟩
      exact ⟨x, hx, rfl⟩
    · rintro ⟨x, hx, rfl⟩
      exact ⟨x, hx, hXfirst x hx, rfl⟩
  | susp =>
    rw [Dvar.bounds_susp hv] at hsum
    have hYfirst : ∀ y ∈ Y.elems, Y.first ≤ y := fun y hy => (Dvar.mem_elems.1 hy).1.1
    have hlow : ∀ x ∈ X.elems, ∀ y ∈ Y.elems, Z.first ≤ x + y := by
      intro x hx y hy
      have := hXfirst x hx
      have := hYfirst y hy
      omega
    obtain ⟨area', hrun, hm⟩ := markRounds_spec hX hb hY.shape hlow (loopRounds X) X.first area hX.first_mem_elems hfuel
    refine ⟨area', hrun, hm.congr fun v _ _ => ?_⟩
    simp only [sums, Set.mem_ofPred_eq, hXdom, Dvar.dom_susp hv]
    constructor
    · rintro ⟨x, hx, -, y, hy, rfl⟩
      exact ⟨x, hx, y, hy, rfl⟩
    · rintro ⟨x, hx, y, hy, rfl⟩
      exact ⟨x, hx, hXfirst x hx, y, hy, rfl⟩
  | ref q => exact absurd hv (hY.not_ref q)

theorem cClpfdAddAcCcc_oob (word : ℤ → BitVec 64) (h : AcInput X Z) (hY : Y.Inv)
    (hbounds : BoundsConsistent X.bounds Y.bounds Z.bounds) (hlow : fdRegionLow ≤ Z.first) (hup : Z.last ≤ fdRegionUp)
    (hfree : Z.last - Z.first + 1 < localTop - heapTop) (hsum : X.first + Y.bounds.1 < Z.first) :
    cClpfdAddAcCcc fdRegionLow fdRegionUp heapTop localTop word X Y Z = .error .oob := by
  rw [cClpfdAddAcCcc_eq h hlow hup hfree]
  rw [Dvar.bounds_susp h.varX, Dvar.bounds_susp h.var] at hbounds
  obtain ⟨b₁, c₁, hb₁, hc₁, heq₁⟩ := hbounds.ofX X.first (.inl rfl)
  cases hv : Y.var with
  | int elmY =>
    rw [Dvar.bounds_int hv] at hsum hb₁
    omega
  | susp =>
    rw [Dvar.bounds_susp hv] at hsum hb₁
    have hstop : ∀ area, markRounds X Y Z.first Z.last (loopRounds X) X.first area = .error .oob := by
      intro area
      rw [loopRounds, markRounds, loopRounds, markLoop_oob _ _ hsum (by omega)]
      rfl
    simp only [scratchAc, hstop, bind, Except.bind]
  | ref q => exact absurd hv (hY.not_ref q)

theorem subMarks_spec (h : AcInput X Y) (hbounds : BoundsConsistent X.bounds Y.bounds (Const, Const)) (area : Area) :
    ∃ area', markLoop Y.first Y.last (fun elmX => Const - elmX) (nextBv X) X.last (loopRounds X) X.first area = .ok area' ∧
      Marked Y.first Y.last (differences Const X) area area' := by
  obtain ⟨b, hb⟩ := Dvar.exists_bv h.bvX
  have hX := h.invX.shape
  have hXle := hX.le
  have hXdom : X.dom = X.elems := Dvar.dom_susp h.varX
  rw [Dvar.bounds_susp h.varX, Dvar.bounds_susp h.var] at hbounds
  obtain ⟨b₁, c₁, hb₁, hc₁, heq₁⟩ := hbounds.ofX X.first (.inl rfl)
  obtain ⟨b₂, c₂, hb₂, hc₂, heq₂⟩ := hbounds.ofX X.last (.inr rfl)
  have hXmem : ∀ x ∈ X.elems, X.first ≤ x ∧ x ≤ X.last := fun x hx => (Dvar.mem_elems.1 hx).1
  obtain ⟨area', hrun, hm⟩ := markLoop_spec Y.first Y.last (fun elmX => Const - elmX) hX (fun e _ => nextBv_eq hb e)
    (fun x hx => by have := hXmem x hx; omega) (fun x hx _ _ _ hbeyond => by have := hXmem x hx; omega) (loopRounds X)
    X.first area hX.first_mem_elems (by unfold loopRounds; omega)
  refine ⟨area', hrun, hm.congr fun v _ _ => ?_⟩
  simp only [differences, Set.mem_ofPred_eq, hXdom]
  constructor
  · rintro ⟨x, hx, -, rfl⟩
    exact ⟨x, hx, rfl⟩
  · rintro ⟨x, hx, rfl⟩
    exact ⟨x, hx, (hXmem x hx).1, rfl⟩

/-- For interval-consistent domains and a free area that passes the guard: the addition stays in its array, keeps the sums
and excludes the other inner values of `Z` if and only if the lower bounds of `X` and `Y` add up to that of `Z` and the
vector of `Z` fits in the area, and the subtraction does so if and only if there is room for the vector of `Y`. -/
theorem addSubAc_meets_iff (heapTop localTop : ℤ) (word : ℤ → BitVec 64) :
    (∀ (fdRegionLow fdRegionUp : ℤ) (X Y Z : Dvar), AcInput X Z → Y.Inv →
      BoundsConsistent X.bounds Y.bounds Z.bounds → fdRegionLow ≤ Z.first → Z.last ≤ fdRegionUp →
      Z.last - Z.first + 1 < localTop - heapTop →
      (AcMeets Z (sums X Y) (cClpfdAddAcCcc fdRegionLow fdRegionUp heapTop localTop word X Y Z) ↔
        Z.first ≤ X.first + Y.bounds.1 ∧ ScratchFits (localTop - heapTop) Z (sums X Y))) ∧
    ∀ (Const : ℤ) (X Y : Dvar), AcInput X Y →
      BoundsConsistent X.bounds Y.bounds (Const, Const) → Y.last - Y.first + 1 < localTop - heapTop → Y.size ≤ 512 →
      (AcMeets Y (differences Const X) (cClpfdSubAcCcc heapTop localTop word Const X Y) ↔
        (Y.type = .it → (∃ u, Y.first < u ∧ u < Y.last ∧ u ∉ differences Const X) →
          smallMargin + 2 + bvSize Y < localTop - heapTop)) := by
  constructor
  · intro fdRegionLow fdRegionUp X Y Z h hY hbounds hlow hup hfree
    by_cases hsum : Z.first ≤ X.first + Y.bounds.1
    · obtain ⟨area₁, hrun, hm⟩ := addMarks_spec h hY hsum
        (Area.clear ⟨heapTop, localTop, word, none⟩ (Z.last - Z.first + 1))
      rw [cClpfdAddAcCcc_eq h hlow hup hfree, scratchAc_meets_iff h.inv h.var rfl hfree hrun hm]
      exact (and_iff_right hsum).symm
    · rw [cClpfdAddAcCcc_oob word h hY hbounds hlow hup hfree (not_le.1 hsum)]
      apply iff_of_false
      · rintro ⟨d', heq, -⟩
        contradiction
      · exact fun hfits => hsum hfits.1
  · intro Const X Y h hbounds hfree hsize
    obtain ⟨area₁, hrun, hm⟩ := subMarks_spec h hbounds
      (Area.clear ⟨heapTop, localTop, word, none⟩ (Y.last - Y.first + 1))
    rw [cClpfdSubAcCcc, if_neg (not_not.2 h.var), if_neg (by omega),
      scratchAc_meets_iff h.inv h.var rfl hfree (by rw [if_neg (not_not.2 h.varX), hrun]) hm]
    change ScratchFits (localTop - heapTop) Y (differences Const X) ↔ _
    constructor
    · rintro hfits hit ⟨u, hf, hl, hu⟩
      exact (hfits hit u hf hl hu).1
    · intro hroom hit u hf hl hu
      have hmargin := hroom hit ⟨u, hf, hl, hu⟩
      have hlen := h.inv.rep.it hit
      refine ⟨hmargin, fun v huv _ _ => ?_⟩
      -- an array of 512 cells is shorter than the margin
      unfold smallMargin at hmargin
      omega

/-! ## Domains -/

/-- `0..3` without 1. -/
def holeAtOne : Dvar :=
  { var := .susp, type := .bv ⟨0, 63, [~~~(1#64 <<< 1)]⟩, first := 0, last := 3, size := 3, outerDomCs := false }

theorem holeAtOne_input {d : Dvar} (h : d.Inv) (hvar : d.var = .susp) : AcInput holeAtOne d := by
  refine ⟨?_, rfl, by decide, h, hvar⟩
  have hinv : (auxCreateDomainVar 0 3).Inv := auxCreateDomainVar_inv (by decide)
  rcases hinv.setFalseAux 1 with ⟨hfail, -⟩ | ⟨d', hrun, hinv', -⟩
  · exact absurd hfail (by decide)
  · have hsame : domainSetFalseAux (auxCreateDomainVar 0 3) 1 = .ok holeAtOne := by decide
    rw [hsame] at hrun
    rwa [Except.ok.inj hrun]

/-- `X + 1 = Z` and `4 - X = Y`, with `X` in `0..3` without 1 and the others in `1..4`. -/
theorem addSubAc_meets_hole : AcMeets (auxCreateDomainVar 1 4) (sums holeAtOne (assignDvar (auxCreateDomainVar 0 3) 1))
      (cClpfdAddAcCcc (-3200) 3200 0 2000 (fun _ => 0) holeAtOne (assignDvar (auxCreateDomainVar 0 3) 1)
        (auxCreateDomainVar 1 4)) ∧
    AcMeets (auxCreateDomainVar 1 4) (differences 4 holeAtOne)
      (cClpfdSubAcCcc 0 2000 (fun _ => 0) 4 holeAtOne (auxCreateDomainVar 1 4)) := by
  have hinv : (auxCreateDomainVar 1 4).Inv := auxCreateDomainVar_inv (by decide)
  have hinvY : (auxCreateDomainVar 0 3).Inv := auxCreateDomainVar_inv (by decide)
  have hone := hinvY.assign 1
  have hX := holeAtOne_input hinv rfl
  have hadd : BoundsConsistent holeAtOne.bounds (assignDvar (auxCreateDomainVar 0 3) 1).bounds
      (auxCreateDomainVar 1 4).bounds := by
    refine ⟨?_, ?_, ?_⟩
    · rintro a (rfl | rfl)
      · exact ⟨1, 1, by decide, by decide, rfl⟩
      · exact ⟨1, 4, by decide, by decide, rfl⟩
    · rintro b (rfl | rfl)
      all_goals exact ⟨0, 1, by decide, by decide, rfl⟩
    · rintro c (rfl | rfl)
      · exact ⟨0, 1, by decide, by decide, rfl⟩
      · exact ⟨3, 1, by decide, by decide, rfl⟩
  have hsub : BoundsConsistent holeAtOne.bounds (auxCreateDomainVar 1 4).bounds (4, 4) := by
    refine ⟨?_, ?_, ?_⟩
    · rintro a (rfl | rfl)
      · exact ⟨4, 4, by decide, by decide, rfl⟩
      · exact ⟨1, 4, by decide, by decide, rfl⟩
    · rintro b (rfl | rfl)
      · exact ⟨3, 4, by decide, by decide, rfl⟩
      · exact ⟨0, 4, by decide, by decide, rfl⟩
    · rintro c (rfl | rfl)
      all_goals exact ⟨0, 4, by decide, by decide, rfl⟩
  have hsize : bvSize (auxCreateDomainVar 1 4) = 1 := by decide
  constructor
  · refine ((addSubAc_meets_iff 0 2000 _).1 (-3200) 3200 _ _ _ hX hone hadd (by decide) (by decide) (by decide)).2
      ⟨by decide, fun _ u hu _ _ => ?_⟩
    rw [hsize, smallMargin]
    refine ⟨by decide, fun v huv _ _ => ?_⟩
    change 1 < u at hu
    change 2 + 1 ≤ 2000 - 0 - (4 - 1 + 1) + (v - 1)
    omega
  · refine ((addSubAc_meets_iff 0 2000 _).2 4 _ _ hX hsub (by decide) (by decide)).2 fun _ _ => ?_
    rw [hsize, smallMargin]
    decide

/-- `X + Y = Z` with `X` in `0..3` without 1, `Y` in `0..3` and `Z` in `3..6` : the domains are interval consistent, and the
first mark is for the sum 0, three cells below the array. -/
theorem cClpfdAddAcCcc_below_array : AcInput holeAtOne (auxCreateDomainVar 3 6) ∧ (auxCreateDomainVar 0 3).Inv ∧
      BoundsConsistent holeAtOne.bounds (auxCreateDomainVar 0 3).bounds (auxCreateDomainVar 3 6).bounds ∧
      cClpfdAddAcCcc (-3200) 3200 0 2000 (fun _ => 0) holeAtOne (auxCreateDomainVar 0 3) (auxCreateDomainVar 3 6) =
        .error .oob ∧
      ¬ AcMeets (auxCreateDomainVar 3 6) (sums holeAtOne (auxCreateDomainVar 0 3))
        (cClpfdAddAcCcc (-3200) 3200 0 2000 (fun _ => 0) holeAtOne (auxCreateDomainVar 0 3) (auxCreateDomainVar 3 6)) := by
  have hinv : (auxCreateDomainVar 3 6).Inv := auxCreateDomainVar_inv (by decide)
  have hinvY : (auxCreateDomainVar 0 3).Inv := auxCreateDomainVar_inv (by decide)
  have hbounds : BoundsConsistent holeAtOne.bounds (auxCreateDomainVar 0 3).bounds (auxCreateDomainVar 3 6).bounds := by
    refine ⟨?_, ?_, ?_⟩
    · rintro a (rfl | rfl)
      · exact ⟨3, 3, by decide, by decide, rfl⟩
      · exact ⟨0, 3, by decide, by decide, rfl⟩
    · rintro b (rfl | rfl)
      · exact ⟨3, 3, by decide, by decide, rfl⟩
      · exact ⟨0, 3, by decide, by decide, rfl⟩
    · rintro c (rfl | rfl)
      · exact ⟨0, 3, by decide, by decide, rfl⟩
      · exact ⟨3, 3, by decide, by decide, rfl⟩
  have hX := holeAtOne_input hinv rfl
  have hrun := cClpfdAddAcCcc_oob (fun _ => 0) hX hinvY hbounds (show -3200 ≤ _ by decide)
    (show _ ≤ 3200 by decide) (show _ < 2000 - 0 by decide) (by decide)
  refine ⟨hX, hinvY, hbounds, hrun, ?_⟩
  rintro ⟨d', heq, -⟩
  rw [hrun] at heq
  contradiction

end

end Picat
