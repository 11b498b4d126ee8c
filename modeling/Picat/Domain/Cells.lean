import Picat.Bigint.Term
import Picat.Event.MergeCs

/-!
# Domain variables in memory

The cells of finite-domain variables, the trail and the choice points: the domain primitives of `domain.c`, `clpfd.h`
and `clpfd_libs.c` down to the cells they write, with what they put on the trail before (`event.h`, `bapi.h`).

* `DvStep`, `DvRun` : one of all these, and runs that keep a choice point.

Addresses count words. The posting of events and the test for an overflow of the control stack are left out.
-/

namespace Picat

/-! ## Words -/

/-- What the garbage collector is told about a saved value. -/
inductive TrailTag where
  | valAtomic
  | valNonatomic
  | bitVector
  deriving DecidableEq, Repr

/-- Two words of the trail: the address of a cell, with its tag, and the value that the cell had. -/
structure SavedCell where
  addr : ℕ
  tag : TrailTag
  val : BitVec 64
  deriving DecidableEq, Repr

/-- `AR_H` and `AR_T` of a choice point; `AR_T` is the number of entries on the trail. -/
structure Fork where
  arH : ℕ
  arT : ℕ
  deriving DecidableEq, Repr

/-- A `BPLONG` as it is stored. -/
def longWord (v : ℤ) : BitVec 64 := BitVec.ofInt 64 v

/-- `MAKEINT` -/
def dmInt (v : ℤ) : BitVec 64 := makeintWord (longWord v)

def ptrWord (addr : ℕ) : BitVec 64 := BitVec.ofNat 64 (8 * addr)

/-- `ADDTAG(addr, LST)` -/
def lstWord (addr : ℕ) : BitVec 64 := ptrWord addr ||| 3

/-- The address `UNTAGGED_ADDR` -/
def untaggedAddr (w : BitVec 64) : ℕ := (w &&& 0x7ffffffffffffffc).toNat / 8

/-- `TAG_MASK` -/
def wordTag (w : BitVec 64) : BitVec 64 := w &&& 0x8000000000000003

/-- `ISINT` -/
def isIntWord (w : BitVec 64) : Bool := wordTag w = 0x8000000000000002

/-- `IS_SUSP_VAR` -/
def isSuspVarWord (w : BitVec 64) : Bool := wordTag w = 0x8000000000000001

/-- `ISLIST` -/
def isListWord (w : BitVec 64) : Bool := wordTag w = 3

def itDomain : BitVec 64 := 1

def unDomain : BitVec 64 := 0

/-! ## Cells and registers -/

def aDvType (dv : ℕ) : ℕ := dv + 1
def aDvAttached (dv : ℕ) : ℕ := dv + 3
def aDvSize (dv : ℕ) : ℕ := dv + 4
def aDvFirst (dv : ℕ) : ℕ := dv + 5
def aDvLast (dv : ℕ) : ℕ := dv + 6

/-- `A_DV_ins_cs`, `A_DV_minmax_cs`, `A_DV_dom_cs` and `A_DV_outer_dom_cs` -/
def aDvCs (dv : ℕ) (k : EventKind) : ℕ := dv + SuspVars.headOffset k

def sizeOfDv : ℕ := 10

/-- The memory and the registers, with the newest entry of the trail in front and the choice points from `breg` on;
`status` has the status words of the suspension frames, named as in the event lists. -/
structure DvHeap where
  mem : ℕ → BitVec 64
  status : ℕ → BitVec 64
  nilSym : BitVec 64
  heapTop : ℕ
  hbreg : ℕ
  trail : List SavedCell
  forks : List Fork

namespace DvHeap

variable (s : DvHeap)

/-- `FOLLOW(addr) = w` -/
def store (addr : ℕ) (w : BitVec 64) : DvHeap := { s with mem := Function.update s.mem addr w }

theorem store_mem_self (addr : ℕ) (w : BitVec 64) : (s.store addr w).mem addr = w := by simp [store]

/-- `*heap_top++ = w` -/
def pushHeap (w : BitVec 64) : DvHeap := { s.store s.heapTop w with heapTop := s.heapTop + 1 }

/-- `PUSHTRAILC(ADDTAG3(addr, tag), val)` -/
def pushtrailc (addr : ℕ) (tag : TrailTag) (val : BitVec 64) : DvHeap := { s with trail := ⟨addr, tag, val⟩ :: s.trail }

/-- `PUSHTRAIL_H_ATOMIC`, `PUSHTRAIL_H_NONATOMIC` and `PUSHTRAIL_H_BIT_VECTOR` -/
def pushtrailH (addr : ℕ) (tag : TrailTag) (cont : BitVec 64) : DvHeap :=
  if addr < s.hbreg then s.pushtrailc addr tag cont else s

/-! ## The variable behind the cells -/

def dvFirst (dv : ℕ) : ℤ := (s.mem (aDvFirst dv)).toInt

def dvLast (dv : ℕ) : ℤ := (s.mem (aDvLast dv)).toInt

def dvSize (dv : ℕ) : ℤ := (s.mem (aDvSize dv)).toInt

def isItDomain (dv : ℕ) : Bool := s.mem (aDvType dv) = itDomain

def isUnDomain (dv : ℕ) : Bool := s.mem (aDvType dv) = unDomain

def dvBitVectorPtr (dv : ℕ) : ℕ := (s.mem (aDvType dv)).toNat / 8

/-- The bit vector at `bv`, with as many words as its range needs. -/
def bitVector (bv : ℕ) : BitVector where
  low := (s.mem bv).toInt
  up := (s.mem (bv + 1)).toInt
  words := (List.range (((s.mem (bv + 1)).toInt + 1 - (s.mem bv).toInt) / 64).toNat).map fun i => s.mem (bv + 2 + i)

/-- The variable at `dv`, when it has a domain. -/
def dvar (dv : ℕ) : Dvar where
  var :=
    if isIntWord (s.mem dv) then .int (intvalWord (s.mem dv)).toInt
    else if isSuspVarWord (s.mem dv) then .susp
    else .ref ((s.mem dv).toNat / 8)
  type := if s.isItDomain dv then .it else .bv (s.bitVector (s.dvBitVectorPtr dv))
  first := s.dvFirst dv
  last := s.dvLast dv
  size := s.dvSize dv
  outerDomCs := s.mem (aDvCs dv .outerDom) ≠ s.nilSym

/-! ## Updates (event.h) -/

def assignDvar (dv : ℕ) (value : BitVec 64) : DvHeap := (s.pushtrailH dv .valNonatomic (s.mem dv)).store dv value

/-- `PUSHTRAILC_ATOMIC(top, old); FOLLOW(top) = new` -/
def saveStore (top : ℕ) (old new : BitVec 64) : DvHeap := (s.pushtrailc top .valAtomic old).store top new

def updateFirstLastSize (dv : ℕ) (oldFirst first oldLast last size : ℤ) : DvHeap :=
  if dv < s.hbreg then
    let s := s.saveStore (aDvFirst dv) (longWord oldFirst) (longWord first)
    let s := s.saveStore (aDvLast dv) (longWord oldLast) (longWord last)
    s.saveStore (aDvSize dv) (s.mem (aDvSize dv)) (longWord size)
  else
    let s := s.store (aDvFirst dv) (longWord first)
    let s := s.store (aDvLast dv) (longWord last)
    s.store (aDvSize dv) (longWord size)

def updateFirstSize (dv : ℕ) (oldFirst first size : ℤ) : DvHeap :=
  if dv < s.hbreg then
    let s := s.saveStore (aDvFirst dv) (longWord oldFirst) (longWord first)
    s.saveStore (aDvSize dv) (s.mem (aDvSize dv)) (longWord size)
  else
    let s := s.store (aDvFirst dv) (longWord first)
    s.store (aDvSize dv) (longWord size)

def updateLastSize (dv : ℕ) (oldLast last size : ℤ) : DvHeap :=
  if dv < s.hbreg then
    let s := s.saveStore (aDvLast dv) (longWord oldLast) (longWord last)
    s.saveStore (aDvSize dv) (s.mem (aDvSize dv)) (longWord size)
  else
    let s := s.store (aDvLast dv) (longWord last)
    s.store (aDvSize dv) (longWord size)

def updateSize (dv : ℕ) (oldSize size : ℤ) : DvHeap :=
  let s := if dv < s.hbreg then s.pushtrailc (aDvSize dv) .valAtomic (longWord oldSize) else s
  s.store (aDvSize dv) (longWord size)

/-! ## From intervals to bit vectors -/

/-- `*heap_top++ = MASK_FF`, `n` times. -/
def pushMasks : ℕ → DvHeap → DvHeap
  | 0, s => s
  | n + 1, s => pushMasks n (s.pushHeap maskFf)

/-- What `it_to_bv`, `it_to_bv_with_hole` and `it_to_bv_with_interval_holes` begin with: the new vector, every bit set. -/
def newBitVector (dv : ℕ) : DvHeap :=
  let from' := wordNumber (s.dvFirst dv)
  let to' := wordNumber (s.dvLast dv)
  let s := s.pushtrailH (aDvType dv) .bitVector (s.mem (aDvType dv))
  let s := s.store (aDvType dv) (ptrWord s.heapTop)
  let s := s.pushHeap (longWord (from' * 64))
  let s := s.pushHeap (longWord ((to' + 1) * 64 - 1))
  pushMasks (to' - from' + 1).toNat s

def itToBv (dv : ℕ) : DvHeap := s.newBitVector dv

/-- `offset = elm-from*NBITS_IN_LONG`, an unsigned number. -/
def bvOffset (dv : ℕ) (elm : ℤ) : ℕ := (longWord (elm - wordNumber (s.dvFirst dv) * 64)).toNat

def itToBvWithHole (dv : ℕ) (elm : ℤ) : DvHeap :=
  let offset := s.bvOffset dv elm
  let wPtr := s.heapTop + 2 + offset / 64
  let s := s.newBitVector dv
  let s := s.store wPtr (~~~(1#64 <<< (offset % 64)))
  s.updateSize dv (s.dvSize dv) (s.dvSize dv - 1)

/-- The loop of `it_to_bv_with_interval_holes`. -/
def holesLoop : ℕ → DvHeap → ℕ → BitVec 64 → ℕ → DvHeap × ℕ × BitVec 64
  | 0, s, wPtr, w, _ => (s, wPtr, w)
  | k + 1, s, wPtr, w, offset =>
    let w := w &&& ~~~(1#64 <<< offset)
    if offset + 1 = 64 then
      let s := s.store wPtr w
      holesLoop k s (wPtr + 1) (s.mem (wPtr + 1)) 0
    else
      holesLoop k s wPtr w (offset + 1)

def itToBvWithIntervalHoles (dv : ℕ) (intervalStart intervalEnd : ℤ) : DvHeap :=
  let offset := s.bvOffset dv intervalStart
  let wPtr := s.heapTop + 2 + offset / 64
  let s := s.newBitVector dv
  let (s, wPtr, w) := holesLoop (intervalEnd + 1 - intervalStart).toNat s wPtr (s.mem wPtr) (offset % 64)
  let s := s.store wPtr w
  s.updateSize dv (s.dvSize dv) (s.dvSize dv - (intervalEnd - intervalStart + 1))

/-! ## Excluding inner elements -/

/-- `WORD_OFFSET`: the word of `elm`, its address and the offset of `elm` in it. -/
def wordOffset (bv : ℕ) (elm : ℤ) : BitVec 64 × ℕ × ℕ :=
  let offset := (longWord (elm - (s.mem bv).toInt)).toNat
  let wPtr := bv + 2 + offset / 64
  (s.mem wPtr, wPtr, offset % 64)

def excludeInnerElmBv (dv : ℕ) (elm : ℤ) : DvHeap :=
  let (w, wPtr, offset) := s.wordOffset (s.dvBitVectorPtr dv) elm
  let w1 := w &&& ~~~(1#64 <<< offset)
  if w = w1 then s
  else
    let s := (s.pushtrailH wPtr .valAtomic w).store wPtr w1
    s.updateSize dv (s.dvSize dv) (s.dvSize dv - 1)

/-- The test in the loop of `exclude_inner_interval_bv`. -/
def excludeStep (wPtr : ℕ) (w : BitVec 64) (offset : ℕ) (count : ℤ) (lastTrailedAddr : Option ℕ) :
    DvHeap × BitVec 64 × ℤ × Option ℕ :=
  let mask := 1#64 <<< offset
  if w &&& mask ≠ 0 then
    let s := if lastTrailedAddr ≠ some wPtr then s.pushtrailH wPtr .valAtomic w else s
    let w := w &&& ~~~mask
    (s.store wPtr w, w, count - 1, some wPtr)
  else
    (s, w, count, lastTrailedAddr)

/-- The loop of `exclude_inner_interval_bv`. -/
def excludeLoop : ℕ → DvHeap → ℕ → BitVec 64 → ℕ → ℤ → Option ℕ → DvHeap × ℤ × Option ℕ
  | 0, s, _, _, _, count, lastTrailedAddr => (s, count, lastTrailedAddr)
  | k + 1, s, wPtr, w, offset, count, lastTrailedAddr =>
    let (s, w, count, lastTrailedAddr) := s.excludeStep wPtr w offset count lastTrailedAddr
    if offset + 1 = 64 then
      excludeLoop k s (wPtr + 1) (s.mem (wPtr + 1)) 0 count lastTrailedAddr
    else
      excludeLoop k s wPtr w (offset + 1) count lastTrailedAddr

def excludeInnerIntervalBv (dv : ℕ) (from' to' : ℤ) : DvHeap :=
  let (w, wPtr, offset) := s.wordOffset (s.dvBitVectorPtr dv) from'
  let (s, count, lastTrailedAddr) := excludeLoop (to' + 1 - from').toNat s wPtr w offset (s.dvSize dv) none
  if lastTrailedAddr ≠ none then s.updateSize dv (s.dvSize dv) count else s

/-! ## Excluding an element -/

def domainSetFalseNoint (dv : ℕ) (elm : ℤ) : Except Stop DvHeap :=
  let first := s.dvFirst dv
  let last := s.dvLast dv
  if elm > first ∧ elm < last then
    if s.isItDomain dv then return s.itToBvWithHole dv elm else return s.excludeInnerElmBv dv elm
  else if elm = first then
    let count := s.dvSize dv
    if count = 2 then
      return s.assignDvar dv (dmInt (s.dvLast dv))
    else do
      let elm ← nextElm (s.dvar dv) elm
      return s.updateFirstSize dv first elm (count - 1)
  else if elm = last then
    let count := s.dvSize dv
    if count = 2 then
      return s.assignDvar dv (dmInt first)
    else do
      let elm ← prevElm (s.dvar dv) elm
      return s.updateLastSize dv last elm (count - 1)
  else
    return s

/-- What `domain_set_false_aux` and `domain_set_false_bv` begin with: the variable may be bound. -/
def unlessInt (dv : ℕ) (test : ℤ → Bool) (body : Except Stop DvHeap) : Except Stop DvHeap :=
  if isIntWord (s.mem dv) then
    if test (intvalWord (s.mem dv)).toInt then .error .fail else .ok s
  else body

def domainSetFalseAux (dv : ℕ) (elm : ℤ) : Except Stop DvHeap :=
  s.unlessInt dv (fun v => v = elm) (s.domainSetFalseNoint dv elm)

/-- `domain_set_false_bv`: no test of the type for an inner element. -/
def domainSetFalseBv (dv : ℕ) (elm : ℤ) : Except Stop DvHeap :=
  s.unlessInt dv (fun v => v = elm)
    (if elm > s.dvFirst dv ∧ elm < s.dvLast dv then return s.excludeInnerElmBv dv elm
    else s.domainSetFalseNoint dv elm)

def domainExcludeFirstBv (dv : ℕ) : Except Stop DvHeap :=
  let count := s.dvSize dv
  if count = 2 then
    return s.assignDvar dv (dmInt (s.dvLast dv))
  else do
    let first := s.dvFirst dv
    let elm ← domainNextBv (s.dvar dv) (first + 1)
    return s.updateFirstSize dv first elm (count - 1)

def domainExcludeLastBv (dv : ℕ) : Except Stop DvHeap :=
  let count := s.dvSize dv
  if count = 2 then
    return s.assignDvar dv (dmInt (s.dvFirst dv))
  else do
    let last := s.dvLast dv
    let elm ← domainPrevBv (s.dvar dv) (last - 1)
    return s.updateLastSize dv last elm (count - 1)

/-! ## Restricting to a region (clpfd.h) -/

/-- `CALL_DOMAIN_REGION_MIN_MAX_noseed` -/
def callDomainRegionMinMax (dv : ℕ) (dvFirst dvLast min max : ℤ) : Except Stop DvHeap :=
  if min = max then
    if s.isItDomain dv then
      return s.assignDvar dv (dmInt min)
    else do
      if ← dmTrue (s.dvar dv) min then return s.assignDvar dv (dmInt min) else .error .fail
  else if s.isItDomain dv then
    return s.updateFirstLastSize dv dvFirst min dvLast max (max - min + 1)
  else do
    let low ← cutOff (s.dvar dv) (dvFirst + 1) (min - 1)
    let high ← cutOff (s.dvar dv) (max + 1) (dvLast - 1)
    let size := s.dvSize dv - (low + high) - 2
    if size = 0 then
      .error .fail
    else
      let min ← domainNextBv (s.dvar dv) min
      if size = 1 then
        return s.assignDvar dv (dmInt min)
      else
        let max ← domainPrevBv (s.dvar dv) max
        return s.updateFirstLastSize dv dvFirst min dvLast max size

/-- `CALL_DOMAIN_REGION_MIN_noseed` -/
def callDomainRegionMin (dv : ℕ) (dvFirst dvLast min : ℤ) : Except Stop DvHeap :=
  if min ≥ dvLast then
    if min > dvLast then .error .fail else return s.assignDvar dv (dmInt min)
  else if s.isItDomain dv then
    return s.updateFirstSize dv dvFirst min (dvLast - min + 1)
  else do
    let low ← cutOff (s.dvar dv) (dvFirst + 1) (min - 1)
    let size := s.dvSize dv - low - 1
    if size = 1 then
      return s.assignDvar dv (dmInt dvLast)
    else
      let min ← domainNextBv (s.dvar dv) min
      return s.updateFirstSize dv dvFirst min size

/-- `CALL_DOMAIN_REGION_MAX_noseed` -/
def callDomainRegionMax (dv : ℕ) (dvFirst dvLast max : ℤ) : Except Stop DvHeap :=
  if max ≤ dvFirst then
    if max < dvFirst then .error .fail else return s.assignDvar dv (dmInt max)
  else if s.isItDomain dv then
    return s.updateLastSize dv dvLast max (max - dvFirst + 1)
  else do
    let high ← cutOff (s.dvar dv) (max + 1) (dvLast - 1)
    let size := s.dvSize dv - high - 1
    if size = 1 then
      return s.assignDvar dv (dmInt dvFirst)
    else
      let max ← domainPrevBv (s.dvar dv) max
      return s.updateLastSize dv dvLast max size

def domainRegionNoint (dv : ℕ) (from' to' : ℤ) : Except Stop DvHeap :=
  let dvFirst := s.dvFirst dv
  let dvLast := s.dvLast dv
  if from' > to' then .error .fail
  else if from' > dvFirst then
    if to' < dvLast then s.callDomainRegionMinMax dv dvFirst dvLast from' to'
    else s.callDomainRegionMin dv dvFirst dvLast from'
  else if to' < dvLast then s.callDomainRegionMax dv dvFirst dvLast to'
  else return s

def domainRegionAux (dv : ℕ) (from' to' : ℤ) : Except Stop DvHeap :=
  s.unlessInt dv (fun val => val < from' ∨ val > to') (s.domainRegionNoint dv from' to')

def domainExcludeIntervalNoint (dv : ℕ) (from' to' : ℤ) : Except Stop DvHeap :=
  if from' ≤ s.dvFirst dv then s.domainRegionNoint dv (to' + 1) (s.dvLast dv)
  else if to' ≥ s.dvLast dv then s.domainRegionNoint dv (s.dvFirst dv) (from' - 1)
  else if s.isItDomain dv then return s.itToBvWithIntervalHoles dv from' to'
  else return s.excludeInnerIntervalBv dv from' to'

def domainExcludeIntervalAux (dv : ℕ) (from' to' : ℤ) : Except Stop DvHeap :=
  s.unlessInt dv (fun val => val ≥ from' ∧ val ≤ to') (s.domainExcludeIntervalNoint dv from' to')

/-! ## Binding (unify.c) -/

/-- `bind_susp_value`; `op1` is what the free variable holds. -/
def bindSuspValue (dv : ℕ) (op2 : BitVec 64) : Except Stop DvHeap :=
  let op1 := s.mem dv
  let bound := (s.pushtrailH dv .valNonatomic op1).store dv op2
  if s.isUnDomain dv then return bound
  else if isIntWord op2 then do
    if ← dmTrue (s.dvar dv) (intvalWord op2).toInt then return bound else .error .fail
  else .error .fail

/-- The elements of an event list. A walk that is longer than the heap does not end. -/
def csElms : ℕ → BitVec 64 → Except Stop (List (BitVec 64))
  | 0, lst => if isListWord lst then .error .oob else .ok []
  | fuel + 1, lst =>
    if isListWord lst then do
      let elms ← csElms fuel (s.mem (untaggedAddr lst + 1))
      return s.mem (untaggedAddr lst) :: elms
    else .ok []

/-- `constr_ar`: the name of the frame in an event list. -/
def constrAr (elm : BitVec 64) : ℕ := (elm &&& 0x7ffffffffffffffc).toNat

/-- `NEW_LIST_NODE(elm, new_cs2, new_cs2)` -/
def newListNode (elm tail : BitVec 64) : DvHeap × BitVec 64 :=
  let tmp := lstWord s.heapTop
  ((s.pushHeap elm).pushHeap tail, tmp)

/-- The second loop of `merge_cs`. -/
def addElms : DvHeap → BitVec 64 → List (BitVec 64) → DvHeap × BitVec 64
  | s, newCs2, [] => (s, newCs2)
  | s, newCs2, elm :: elms =>
    if isDropped s.status (constrAr elm) then addElms s newCs2 elms
    else
      let (s, newCs2) := s.newListNode elm newCs2
      addElms s newCs2 elms

def mergeCs (addrHeadCs1 : ℕ) (cs2 : BitVec 64) : Except Stop DvHeap := do
  let cs1 := s.mem addrHeadCs1
  let elms1 ← s.csElms s.heapTop cs1
  let elms2 ← s.csElms s.heapTop cs2
  -- mark frames in cs1
  let s := { s with status := (elms1.map constrAr).foldl mark s.status }
  let (s, newCs2) := addElms s cs1 elms2
  -- unmark cs1
  let s := { s with status := (elms1.map constrAr).foldl unmark s.status }
  if s.mem addrHeadCs1 ≠ newCs2 then
    return (s.pushtrailH addrHeadCs1 .valNonatomic (s.mem addrHeadCs1)).store addrHeadCs1 newCs2
  else
    return s

/-- One event list of `dv2`, unless it is empty. -/
def mergeKind (dv1 dv2 : ℕ) (s : DvHeap) (k : EventKind) : Except Stop DvHeap :=
  if s.mem (aDvCs dv2 k) ≠ s.nilSym then s.mergeCs (aDvCs dv1 k) (s.mem (aDvCs dv2 k)) else return s

/-- `bind_susp_susp` : let `dv2` point to `dv1` -/
def bindSuspSusp (dv1 dv2 : ℕ) : Except Stop DvHeap :=
  let s := (s.pushtrailH dv2 .valNonatomic (s.mem dv2)).store dv2 (ptrWord dv1)
  [EventKind.ins, .minmax, .dom, .outerDom].foldlM (mergeKind dv1 dv2) s

def dmClone (dv : ℕ) : DvHeap :=
  let cp := s.heapTop
  let s := s.store cp (ptrWord cp ||| 0x8000000000000001)
  let s := s.store (aDvType cp) (s.mem (aDvType dv))
  let s := s.store (aDvFirst cp) (s.mem (aDvFirst dv))
  let s := s.store (aDvLast cp) (s.mem (aDvLast dv))
  let s := s.store (aDvSize cp) (s.mem (aDvSize dv))
  let s := s.store (aDvCs cp .ins) s.nilSym
  let s := s.store (aDvCs cp .minmax) s.nilSym
  let s := s.store (aDvCs cp .dom) s.nilSym
  let s := s.store (aDvCs cp .outerDom) s.nilSym
  let s := s.store (aDvAttached cp) (s.mem (aDvAttached dv))
  { s with heapTop := s.heapTop + sizeOfDv }

def unifyUpdateFirstLastSize (dv : ℕ) (first last size : ℤ) : DvHeap :=
  if s.dvFirst dv ≠ first then
    if s.dvLast dv ≠ last then s.updateFirstLastSize dv (s.dvFirst dv) first (s.dvLast dv) last size
    else s.updateFirstSize dv (s.dvFirst dv) first size
  else if s.dvLast dv ≠ last then s.updateLastSize dv (s.dvLast dv) last size
  else s

/-- `INSERT_SUSP_CALL`; `ar` is the tagged distance of the frame. -/
def insertSuspCall (csAddr : ℕ) (ar : BitVec 64) : DvHeap :=
  let top := csAddr
  let s := s.pushtrailH top .valNonatomic (s.mem top)
  let s := s.store s.heapTop ar
  let s := s.store (s.heapTop + 1) (s.mem top)
  let s := s.store top (lstWord s.heapTop)
  { s with heapTop := s.heapTop + 2 }

/-! ## Choice points -/

def undoTrail (top : ℕ) : List SavedCell → (ℕ → BitVec 64) → Option (List SavedCell × (ℕ → BitVec 64))
  | [], mem => if top = 0 then some ([], mem) else none
  | e :: trail, mem =>
    if (e :: trail).length = top then some (e :: trail, mem)
    else undoTrail top trail (Function.update mem e.addr e.val)

/-- The instruction `nondet`: a new choice point. -/
def nondet : DvHeap := { s with hbreg := s.heapTop, forks := ⟨s.heapTop, s.trail.length⟩ :: s.forks }

/-- `CUT`, `CUT0` and the like: `B` becomes one of the older choice points, or stays. -/
def cut (forks : List Fork) : Option DvHeap :=
  match forks with
  | [] => none
  | b :: older => if b :: older <:+ s.forks then some { s with hbreg := b.arH, forks := b :: older } else none

/-- The instruction `fail`. The choice point stays until it is cut. -/
def fail : Option DvHeap :=
  match s.forks with
  | [] => none
  | ar :: _ => (undoTrail ar.arT s.trail s.mem).map fun r => { s with heapTop := s.hbreg, trail := r.1, mem := r.2 }

/-! ## Runs -/

inductive Op where
  | setFalseNoint (dv : ℕ) (elm : ℤ)
  | setFalseAux (dv : ℕ) (elm : ℤ)
  | setFalseBv (dv : ℕ) (elm : ℤ)
  | excludeFirstBv (dv : ℕ)
  | excludeLastBv (dv : ℕ)
  | excludeInnerIntervalBv (dv : ℕ) (from' to' : ℤ)
  | excludeIntervalNoint (dv : ℕ) (from' to' : ℤ)
  | excludeIntervalAux (dv : ℕ) (from' to' : ℤ)
  | regionNoint (dv : ℕ) (from' to' : ℤ)
  | regionAux (dv : ℕ) (from' to' : ℤ)
  | itToBv (dv : ℕ)
  | assignDvar (dv : ℕ) (value : BitVec 64)
  | bindSuspValue (dv : ℕ) (op2 : BitVec 64)
  | unifyUpdateFirstLastSize (dv : ℕ) (first last size : ℤ)
  | dmClone (dv : ℕ)
  | bindSuspSusp (dv1 dv2 : ℕ)
  | insertSuspCall (csAddr : ℕ) (ar : BitVec 64)

def run : Op → Except Stop DvHeap
  | .setFalseNoint dv elm => s.domainSetFalseNoint dv elm
  | .setFalseAux dv elm => s.domainSetFalseAux dv elm
  | .setFalseBv dv elm => s.domainSetFalseBv dv elm
  | .excludeFirstBv dv => s.domainExcludeFirstBv dv
  | .excludeLastBv dv => s.domainExcludeLastBv dv
  | .excludeInnerIntervalBv dv from' to' => return s.excludeInnerIntervalBv dv from' to'
  | .excludeIntervalNoint dv from' to' => s.domainExcludeIntervalNoint dv from' to'
  | .excludeIntervalAux dv from' to' => s.domainExcludeIntervalAux dv from' to'
  | .regionNoint dv from' to' => s.domainRegionNoint dv from' to'
  | .regionAux dv from' to' => s.domainRegionAux dv from' to'
  | .itToBv dv => return s.itToBv dv
  | .assignDvar dv value => return s.assignDvar dv value
  | .bindSuspValue dv op2 => s.bindSuspValue dv op2
  | .unifyUpdateFirstLastSize dv first last size => return s.unifyUpdateFirstLastSize dv first last size
  | .dmClone dv => return s.dmClone dv
  | .bindSuspSusp dv1 dv2 => s.bindSuspSusp dv1 dv2
  | .insertSuspCall csAddr ar => return s.insertSuspCall csAddr ar

end DvHeap

/-- One step: an operation, a new choice point, a cut, or a failure. An operation that fails leaves the cells as they are. -/
inductive DvStep : DvHeap → DvHeap → Prop
  | op {s s' : DvHeap} (op : DvHeap.Op) (h : s.run op = .ok s') : DvStep s s'
  | nondet (s : DvHeap) : DvStep s s.nondet
  | cut {s s' : DvHeap} (forks : List Fork) (h : s.cut forks = some s') : DvStep s s'
  | fail {s s' : DvHeap} (h : s.fail = some s') : DvStep s s'

/-- Runs in which the choice points `forks` are not cut. -/
def DvRun (forks : List Fork) : DvHeap → DvHeap → Prop :=
  Relation.ReflTransGen fun s₁ s₂ => DvStep s₁ s₂ ∧ forks <:+ s₂.forks

end Picat
