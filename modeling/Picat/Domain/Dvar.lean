import Picat.Lib.BitScan

/-!
# Domain variables and their bit vectors

The record of a finite-domain variable (`DV_*`), the macros of `term.h` that address a bit vector
word by word (`WORD_OFFSET`, `NEXT_IN_WORD`, `NEXT_IN_ELM`, `PREV_IN_WORD`, `PREV_IN_ELM`) and the
routines of `domain.c` that only read a domain.

* `Dvar.Shape` is what every routine relies on: both bounds are elements and the vector is as long
  as its range.
-/

namespace Picat

open BitScan

/-! ## The record -/

/-- How a domain routine stops short of a normal return. -/
inductive Stop where
  /-- It returned `0`: the call fails. -/
  | fail
  /-- It accessed a word outside of the allocated bit vector. -/
  | oob
  deriving DecidableEq, Repr

/-- A bit vector: `BV_low_val`, `BV_up_val` and the words from `BV_base_ptr` on. -/
structure BitVector where
  low : ℤ
  up : ℤ
  words : List (BitVec 64)
  deriving DecidableEq, Repr

/-- `DV_type`: `IT_DOMAIN`, or the address of a bit vector. -/
inductive DvType where
  | it
  | bv (b : BitVector)
  deriving DecidableEq, Repr

/-- `DV_var`: a suspension variable until it is assigned an integer or made to point to another variable. -/
inductive DvVar where
  | susp
  | int (v : ℤ)
  | ref (p : ℕ)
  deriving DecidableEq, Repr

/-- A finite-domain variable. `outerDomCs` says whether `DV_outer_dom_cs` is other than `nil_sym`. -/
structure Dvar where
  var : DvVar
  type : DvType
  first : ℤ
  last : ℤ
  size : ℤ
  outerDomCs : Bool
  deriving DecidableEq, Repr

def maskFf : BitVec 64 := BitVec.allOnes 64

/-- `WORD_NUMBER`: the division of C truncates, so the negative values are shifted first. -/
def wordNumber (val : ℤ) : ℤ := if val ≥ 0 then val.tdiv 64 else (-(-val + 64 - 1)).tdiv 64

/-- The vector behind `DV_bit_vector_ptr`; an interval domain has none. -/
def Dvar.bvPtr (d : Dvar) : Except Stop BitVector :=
  match d.type with
  | .it => .error .oob
  | .bv b => .ok b

/-- `WORD_OFFSET`: the word of `elm`, its index and the offset of `elm` in it. The subtraction is unsigned,
so an element below `BV_low_val` addresses a word far outside. -/
def wordOffset (b : BitVector) (elm : ℤ) : Except Stop (BitVec 64 × ℕ × ℕ) :=
  if elm - b.low < 0 then .error .oob
  else
    let offset := (elm - b.low).toNat
    match b.words[offset / 64]? with
    | none => .error .oob
    | some w => .ok (w, offset / 64, offset % 64)

/-! ## Scanning upwards -/

/-- The loop `while (w == 0L)` of `NEXT_IN_WORD`, over the words from `w_ptr` on. -/
def nextNonzeroWord : List (BitVec 64) → ℤ → Except Stop (BitVec 64 × ℤ)
  | [], _ => .error .oob
  | w :: ws, elm => if w = 0 then nextNonzeroWord ws (elm + 64) else .ok (w, elm)

/-- `NEXT_IN_WORD`, with the words after the current one. -/
def nextInWord (elm : ℤ) (w : BitVec 64) (ws : List (BitVec 64)) (offset : ℕ) : Except Stop (ℤ × BitVec 64 × ℕ) :=
  if w &&& maskFf <<< offset = 0 then do
    let (w, elm) ← nextNonzeroWord ws (elm + 64 - offset)
    return (elm, w, 0)
  else
    return (elm, w, offset)

/-- The first loop of `NEXT_IN_ELM`, byte by byte. A shift by 64 or more is undefined. -/
def nextByte : ℕ → ℤ → BitVec 64 → ℕ → Except Stop (ℤ × ℕ)
  | 0, _, _, _ => .error .oob
  | fuel + 1, elm, w, offset =>
    if w &&& 0xff#64 <<< offset = 0 then nextByte fuel (elm + 8) w (offset + 8) else .ok (elm, offset)

/-- The second loop of `NEXT_IN_ELM`, bit by bit. -/
def nextBit : ℕ → ℤ → BitVec 64 → ℕ → Except Stop ℤ
  | 0, _, _, _ => .error .oob
  | fuel + 1, elm, w, offset =>
    if w &&& 1#64 <<< offset = 0 then nextBit fuel (elm + 1) w (offset + 1) else .ok elm

def nextInElm (elm : ℤ) (w : BitVec 64) (offset : ℕ) : Except Stop ℤ := do
  let (elm, offset) ← nextByte 64 elm w offset
  nextBit 64 elm w offset

def bvNextIn (b : BitVector) (elm : ℤ) : Except Stop ℤ := do
  let (w, wPtr, offset) ← wordOffset b elm
  let (elm, w, offset) ← nextInWord elm w (b.words.drop (wPtr + 1)) offset
  nextInElm elm w offset

def domainNextBv (d : Dvar) (elm : ℤ) : Except Stop ℤ := do
  let b ← d.bvPtr
  bvNextIn b elm

/-! ## Scanning downwards -/

/-- The word at `w_ptr`. -/
def readWord (ws : List (BitVec 64)) (wPtr : ℕ) : Except Stop (BitVec 64) :=
  match ws[wPtr]? with
  | none => .error .oob
  | some w => .ok w

/-- The loop of `PREV_IN_WORD`; `w_ptr` moves down one word a round. -/
def prevInWord (ws : List (BitVec 64)) : ℕ → ℤ → BitVec 64 → ℕ → BitVec 64 → Except Stop (ℤ × BitVec 64 × ℕ)
  | 0, elm, w, offset, mask => if w &&& mask = 0 then .error .oob else .ok (elm, w, offset)
  | wPtr + 1, elm, w, offset, mask =>
    if w &&& mask = 0 then do
      let w ← readWord ws wPtr
      prevInWord ws wPtr (elm - offset - 1) w (64 - 1) maskFf
    else
      .ok (elm, w, offset)

/-- `PREV_IN_ELM`: `mask` starts at the bit `offset` and moves down. -/
def prevInElm : ℕ → ℤ → BitVec 64 → Except Stop ℤ
  | 0, elm, w => if w &&& 1#64 = 0 then .error .oob else .ok elm
  | offset + 1, elm, w => if w &&& 1#64 <<< (offset + 1) = 0 then prevInElm offset (elm - 1) w else .ok elm

def bvPrevIn (b : BitVector) (elm : ℤ) : Except Stop ℤ := do
  let (w, wPtr, offset) ← wordOffset b elm
  let (elm, w, offset) ← prevInWord b.words wPtr elm w offset (maskFf >>> (64 - 1 - offset))
  prevInElm offset elm w

def domainPrevBv (d : Dvar) (elm : ℤ) : Except Stop ℤ := do
  let b ← d.bvPtr
  bvPrevIn b elm

/-! ## Tests and counts -/

/-- `dm_true_bv_nbt`: the bit of `elm`, with no bound test. -/
def dmTrueBvNbt (d : Dvar) (elm : ℤ) : Except Stop Bool := do
  let b ← d.bvPtr
  let (w, _, offset) ← wordOffset b elm
  return w &&& 1#64 <<< offset ≠ 0

def dmTrueBv (d : Dvar) (elm : ℤ) : Except Stop Bool :=
  if elm ≤ d.first then return elm = d.first
  else if elm ≥ d.last then return elm = d.last
  else dmTrueBvNbt d elm

def dmTrue (d : Dvar) (elm : ℤ) : Except Stop Bool :=
  if elm ≤ d.first then return elm = d.first
  else if elm ≥ d.last then return elm = d.last
  else if d.type = .it then return true
  else dmTrueBvNbt d elm

/-- The loop of `count_domain_elms`, for the elements still to be seen and the words after the current one.
`count` is an `int`. -/
def countLoop : ℕ → BitVec 64 → List (BitVec 64) → BitVec 64 → BitVec 32 → Except Stop (BitVec 32)
  | 0, _, _, _, count => .ok count
  | k + 1, w, ws, mask, count =>
    let count := if w &&& mask ≠ 0 then count + 1 else count
    if mask <<< 1 = 0 then
      match ws with
      | [] => .error .oob
      | w :: ws => countLoop k w ws 1#64 count
    else
      countLoop k w ws (mask <<< 1) count

def countDomainElms (d : Dvar) (from' to' : ℤ) : Except Stop ℤ := do
  let b ← d.bvPtr
  let (w, wPtr, offset) ← wordOffset b from'
  let count ← countLoop (to' + 1 - from').toNat w (b.words.drop (wPtr + 1)) (1#64 <<< offset) 0
  return count.toInt

/-- `exclude_domain_elms` counts as `count_domain_elms` does; the events it posts are not modelled. -/
def excludeDomainElms (d : Dvar) (from' to' : ℤ) : Except Stop ℤ := countDomainElms d from' to'

/-! ## The content of a vector -/

/-- `elm` is in the vector: its bit is set. -/
def BitVector.has (b : BitVector) (elm : ℤ) : Bool := decide (b.low ≤ elm) && bitAt b.words (elm - b.low).toNat

/-- The words fill the range from `low` to `up`. -/
def BitVector.Filled (b : BitVector) : Prop := b.up + 1 = b.low + 64 * b.words.length

theorem BitVector.holds (b : BitVector) : Holds b.words b.low b.has := by
  intro i
  simp [BitVector.has]

theorem BitVector.low_le {b : BitVector} {x : ℤ} (h : b.has x = true) : b.low ≤ x := by
  simp only [BitVector.has, Bool.and_eq_true, decide_eq_true_eq] at h
  exact h.1

theorem BitVector.lt_of_has {b : BitVector} {x : ℤ} (h : b.has x = true) : x < b.low + 64 * b.words.length := by
  simp only [BitVector.has, Bool.and_eq_true, decide_eq_true_eq] at h
  have := lt_of_bitAt h.2
  omega

theorem BitVector.Filled.le_up {b : BitVector} (hb : b.Filled) {x : ℤ} (h : b.has x = true) : x ≤ b.up := by
  have := b.lt_of_has h
  unfold BitVector.Filled at hb
  omega

/-! ## The set of a variable -/

def DvType.has : DvType → ℤ → Bool
  | .it, _ => true
  | .bv b, elm => b.has elm

@[simp] theorem DvType.has_it (elm : ℤ) : DvType.it.has elm = true := rfl

@[simp] theorem DvType.has_bv (b : BitVector) (elm : ℤ) : (DvType.bv b).has elm = b.has elm := rfl

noncomputable def Dvar.elems (d : Dvar) : Finset ℤ := members d.type.has d.first d.last

/-- The shape every routine relies on: both bounds are elements, and a vector is as long as its range. -/
structure Dvar.Shape (d : Dvar) : Prop where
  le : d.first ≤ d.last
  first_mem : d.type.has d.first = true
  last_mem : d.type.has d.last = true
  filled : ∀ b, d.type = .bv b → b.Filled

theorem Dvar.mem_elems {d : Dvar} {x : ℤ} : x ∈ d.elems ↔ (d.first ≤ x ∧ x ≤ d.last) ∧ d.type.has x = true :=
  mem_members

namespace Dvar.Shape

variable {d : Dvar} {b : BitVector} {x e : ℤ}

theorem first_mem_elems (h : d.Shape) : d.first ∈ d.elems := mem_elems.2 ⟨⟨le_refl _, h.le⟩, h.first_mem⟩

theorem last_mem_elems (h : d.Shape) : d.last ∈ d.elems := mem_elems.2 ⟨⟨h.le, le_refl _⟩, h.last_mem⟩

section
variable (h : d.Shape) (hb : d.type = .bv b)
include h hb

theorem low_le : b.low ≤ d.first :=
  b.low_le (by simpa [hb] using h.first_mem)

theorem last_lt : d.last < b.low + 64 * b.words.length :=
  b.lt_of_has (by simpa [hb] using h.last_mem)

theorem last_le_up : d.last ≤ b.up :=
  (h.filled b hb).le_up (by simpa [hb] using h.last_mem)

end

end Dvar.Shape

end Picat

/-! # The domain primitives -/

namespace Picat

/-! ## Field updates (event.h) -/

def assignDvar (d : Dvar) (value : ℤ) : Dvar := { d with var := .int value }

def updateFirstLastSize (d : Dvar) (first last size : ℤ) : Dvar :=
  { d with first := first, last := last, size := size }

def updateFirstSize (d : Dvar) (first size : ℤ) : Dvar := { d with first := first, size := size }

def updateLastSize (d : Dvar) (last size : ℤ) : Dvar := { d with last := last, size := size }

def updateSize (d : Dvar) (size : ℤ) : Dvar := { d with size := size }

/-- `aux_create_domain_var` on a free variable. -/
def auxCreateDomainVar (from' to' : ℤ) : Dvar :=
  { var := .susp, type := .it, first := from', last := to', size := to' - from' + 1, outerDomCs := false }

/-- `b_DM_CREATE_DVAR` on a free variable and two integers. When they are equal the variable is unified with
the integer, and its fields are never looked at. -/
def bDmCreateDvar (from' to' : ℤ) : Dvar :=
  if from' = to' then assignDvar (auxCreateDomainVar from' to') from' else auxCreateDomainVar from' to'

/-! ## From intervals to bit vectors -/

/-- `FOLLOW(w_ptr) = w`. -/
def storeWord (ws : List (BitVec 64)) (wPtr : ℕ) (w : BitVec 64) : Except Stop (List (BitVec 64)) :=
  if wPtr < ws.length then .ok (ws.set wPtr w) else .error .oob

/-- The vector that `it_to_bv`, `it_to_bv_with_hole` and `it_to_bv_with_interval_holes` allocate: all the
words of the bounds, every bit set. -/
def itToBvWords (d : Dvar) : BitVector :=
  { low := wordNumber d.first * 64
    up := (wordNumber d.last + 1) * 64 - 1
    words := List.replicate (wordNumber d.last - wordNumber d.first + 1).toNat maskFf }

def itToBvWithHole (d : Dvar) (elm : ℤ) : Except Stop Dvar := do
  let b := itToBvWords d
  let offset := (elm - wordNumber d.first * 64).toNat
  let words ← storeWord b.words (offset / 64) (~~~(1#64 <<< (offset % 64)))
  return updateSize { d with type := .bv { b with words := words } } (d.size - 1)

/-- The loop of `it_to_bv_with_interval_holes`: the word at `w_ptr` is held in `w` and stored when the loop
moves to the next one. -/
def itToBvHolesLoop : ℕ → List (BitVec 64) → ℕ → BitVec 64 → ℕ → Except Stop (List (BitVec 64) × ℕ × BitVec 64)
  | 0, ws, wPtr, w, _ => .ok (ws, wPtr, w)
  | k + 1, ws, wPtr, w, offset =>
    let w := w &&& ~~~(1#64 <<< offset)
    if offset + 1 = 64 then do
      let ws ← storeWord ws wPtr w
      let w ← readWord ws (wPtr + 1)
      itToBvHolesLoop k ws (wPtr + 1) w 0
    else
      itToBvHolesLoop k ws wPtr w (offset + 1)

def itToBvWithIntervalHoles (d : Dvar) (intervalStart intervalEnd : ℤ) : Except Stop Dvar := do
  let b := itToBvWords d
  let offset := (intervalStart - wordNumber d.first * 64).toNat
  let w ← readWord b.words (offset / 64)
  let (words, wPtr, w) ← itToBvHolesLoop (intervalEnd + 1 - intervalStart).toNat b.words (offset / 64) w (offset % 64)
  let words ← storeWord words wPtr w
  return updateSize { d with type := .bv { b with words := words } } (d.size - (intervalEnd - intervalStart + 1))

/-! ## Excluding inner elements -/

def excludeInnerElmBv (d : Dvar) (elm : ℤ) : Except Stop Dvar := do
  let b ← d.bvPtr
  let (w, wPtr, offset) ← wordOffset b elm
  let w1 := w &&& ~~~(1#64 <<< offset)
  if w = w1 then
    return d
  else
    let words ← storeWord b.words wPtr w1
    return updateSize { d with type := .bv { b with words := words } } (d.size - 1)

/-- The test in the loop of `exclude_inner_interval_bv`: an element that is in is taken out, and the word stored. The
flag says that `last_trailed_addr` is not `NULL`. -/
def excludeInnerStep (ws : List (BitVec 64)) (wPtr : ℕ) (w : BitVec 64) (offset : ℕ) (count : ℤ) (trailed : Bool) :
    Except Stop (List (BitVec 64) × BitVec 64 × ℤ × Bool) :=
  if w &&& 1#64 <<< offset ≠ 0 then do
    let w := w &&& ~~~(1#64 <<< offset)
    let ws ← storeWord ws wPtr w
    return (ws, w, count - 1, true)
  else
    return (ws, w, count, trailed)

/-- The loop of `exclude_inner_interval_bv`. -/
def excludeInnerLoop : ℕ → List (BitVec 64) → ℕ → BitVec 64 → ℕ → ℤ → Bool → Except Stop (List (BitVec 64) × ℤ × Bool)
  | 0, ws, _, _, _, count, trailed => .ok (ws, count, trailed)
  | k + 1, ws, wPtr, w, offset, count, trailed => do
      let (ws, w, count, trailed) ← excludeInnerStep ws wPtr w offset count trailed
      if offset + 1 = 64 then do
        let w ← readWord ws (wPtr + 1)
        excludeInnerLoop k ws (wPtr + 1) w 0 count trailed
      else
        excludeInnerLoop k ws wPtr w (offset + 1) count trailed

def excludeInnerIntervalBv (d : Dvar) (from' to' : ℤ) : Except Stop Dvar := do
  let b ← d.bvPtr
  let (w, wPtr, offset) ← wordOffset b from'
  let (words, count, trailed) ← excludeInnerLoop (to' + 1 - from').toNat b.words wPtr w offset d.size false
  let d := { d with type := .bv { b with words := words } }
  return if trailed then updateSize d count else d

/-! ## Excluding an element -/

/-- The step to the next element: `elm + 1` in an interval. -/
def nextElm (d : Dvar) (elm : ℤ) : Except Stop ℤ :=
  if d.type = .it then return elm + 1 else domainNextBv d (elm + 1)

def prevElm (d : Dvar) (elm : ℤ) : Except Stop ℤ :=
  if d.type = .it then return elm - 1 else domainPrevBv d (elm - 1)

def domainSetFalseNoint (d : Dvar) (elm : ℤ) : Except Stop Dvar :=
  if elm > d.first ∧ elm < d.last then
    if d.type = .it then itToBvWithHole d elm else excludeInnerElmBv d elm
  else if elm = d.first then
    if d.size = 2 then
      return assignDvar d d.last
    else do
      let elm ← nextElm d elm
      return updateFirstSize d elm (d.size - 1)
  else if elm = d.last then
    if d.size = 2 then
      return assignDvar d d.first
    else do
      let elm ← prevElm d elm
      return updateLastSize d elm (d.size - 1)
  else
    return d

/-- `domain_set_false_aux`: the variable may be bound; from there on the text of `domain_set_false_noint`. -/
def domainSetFalseAux (d : Dvar) (elm : ℤ) : Except Stop Dvar :=
  match d.var with
  | .int v => if v = elm then .error .fail else .ok d
  | _ => domainSetFalseNoint d elm

/-! ## Restricting to a region (clpfd.h) -/

def callCountDomainElms (d : Dvar) (from' to' : ℤ) : Except Stop ℤ :=
  if from' > to' then return 0 else countDomainElms d from' to'

def callExcludeDomainElms (d : Dvar) (from' to' : ℤ) : Except Stop ℤ :=
  if from' > to' then return 0 else excludeDomainElms d from' to'

/-- The number of elements a region cuts off between a bound and the new bound. -/
def cutOff (d : Dvar) (from' to' : ℤ) : Except Stop ℤ :=
  if d.outerDomCs then callExcludeDomainElms d from' to' else callCountDomainElms d from' to'

/-- `CALL_DOMAIN_REGION_MIN_MAX`, with the new values of `dv_ptr_first` and `dv_ptr_last`. -/
def callDomainRegionMinMax (d : Dvar) (dvFirst dvLast min max : ℤ) : Except Stop (Dvar × ℤ × ℤ) :=
  if min = max then
    if d.type = .it then
      return (assignDvar d min, min, max)
    else do
      if ← dmTrue d min then return (assignDvar d min, min, max) else .error .fail
  else if d.type = .it then
    return (updateFirstLastSize d min max (max - min + 1), min, max)
  else do
    let low ← cutOff d (dvFirst + 1) (min - 1)
    let high ← cutOff d (max + 1) (dvLast - 1)
    let size := d.size - (low + high) - 2
    if size = 0 then
      .error .fail
    else
      let min ← domainNextBv d min
      if size = 1 then
        return (assignDvar d min, min, min)
      else
        let max ← domainPrevBv d max
        return (updateFirstLastSize d min max size, min, max)

def callDomainRegionMin (d : Dvar) (dvFirst dvLast min : ℤ) : Except Stop (Dvar × ℤ × ℤ) :=
  if min ≥ dvLast then
    if min > dvLast then .error .fail else return (assignDvar d min, min, dvLast)
  else if d.type = .it then
    return (updateFirstSize d min (dvLast - min + 1), min, dvLast)
  else do
    let low ← cutOff d (dvFirst + 1) (min - 1)
    let size := d.size - low - 1
    if size = 1 then
      return (assignDvar d dvLast, dvLast, dvLast)
    else
      let min ← domainNextBv d min
      return (updateFirstSize d min size, min, dvLast)

def callDomainRegionMax (d : Dvar) (dvFirst dvLast max : ℤ) : Except Stop (Dvar × ℤ × ℤ) :=
  if max ≤ dvFirst then
    if max < dvFirst then .error .fail else return (assignDvar d max, dvFirst, max)
  else if d.type = .it then
    return (updateLastSize d max (max - dvFirst + 1), dvFirst, max)
  else do
    let high ← cutOff d (max + 1) (dvLast - 1)
    let size := d.size - high - 1
    if size = 1 then
      return (assignDvar d dvFirst, dvFirst, dvFirst)
    else
      let max ← domainPrevBv d max
      return (updateLastSize d max size, dvFirst, max)

/-- `CALL_DOMAIN_REGION` and `CALL_DOMAIN_REGION_noseed`, which differ in the events they post. -/
def callDomainRegion (d : Dvar) (dvFirst dvLast min max : ℤ) : Except Stop (Dvar × ℤ × ℤ) :=
  if min > max then .error .fail
  else if min > dvFirst then
    if max < dvLast then callDomainRegionMinMax d dvFirst dvLast min max
    else callDomainRegionMin d dvFirst dvLast min
  else if max < dvLast then callDomainRegionMax d dvFirst dvLast max
  else return (d, dvFirst, dvLast)

def domainRegionNoint (d : Dvar) (from' to' : ℤ) : Except Stop Dvar := do
  let (d, _, _) ← callDomainRegion d d.first d.last from' to'
  return d

def domainRegionAux (d : Dvar) (from' to' : ℤ) : Except Stop Dvar :=
  match d.var with
  | .int val => if val < from' ∨ val > to' then .error .fail else .ok d
  | _ => domainRegionNoint d from' to'

def domainExcludeIntervalNoint (d : Dvar) (from' to' : ℤ) : Except Stop Dvar :=
  if from' ≤ d.first then domainRegionNoint d (to' + 1) d.last
  else if to' ≥ d.last then domainRegionNoint d d.first (from' - 1)
  else if d.type = .it then itToBvWithIntervalHoles d from' to'
  else excludeInnerIntervalBv d from' to'

def domainExcludeIntervalAux (d : Dvar) (from' to' : ℤ) : Except Stop Dvar :=
  match d.var with
  | .int val => if val ≥ from' ∧ val ≤ to' then .error .fail else .ok d
  | _ => domainExcludeIntervalNoint d from' to'

end Picat
