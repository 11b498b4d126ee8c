import Mathlib.Data.List.Count
import Mathlib.Data.List.Range
import Picat.Lib.HashChains

/-!
# Suspension frames

The activation records of actors and propagators, and the macros of `toam.h` and the instructions of `emu_inst.h` that
change their status and the chain of activation records. The chain keeps its suspension frames only: ordinary frames come
and go between them. A saved program pointer goes with its place in the chain and is left out.

* `deliver` : one node of an event list is visited.
-/

namespace Picat

/-! ## Status words -/

/-- `AR_STATUS`: the tag, and for three of the tags the stamp, the address of a choice point. -/
inductive SuspStatus
  | start
  | exit
  | clone
  | reent (stamp : ℕ)
  | sleep (stamp : ℕ)
  | run (stamp : ℕ)
  deriving DecidableEq

namespace SuspStatus

/-- The word: `SUSP_START` 0, `SUSP_EXIT` 4, `SUSP_CLONE` 5, and the tags 1, 2 and 3 over a stamp in bytes. -/
def word : SuspStatus → ℕ
  | start => 0
  | exit => 4
  | clone => 5
  | reent stamp => 8 * stamp + 1
  | sleep stamp => 8 * stamp + 2
  | run stamp => 8 * stamp + 3

def isSleep : SuspStatus → Bool
  | sleep _ => true
  | _ => false

def isRun : SuspStatus → Bool
  | run _ => true
  | _ => false

/-- `FRAME_IS_REENT`, in the branches where `SUSP_CLONE` is ruled out. -/
def isReent : SuspStatus → Bool
  | reent _ => true
  | _ => false

/-- `AR_STATUS_STAMP`, for a frame that has slept or run. -/
def stamp : SuspStatus → ℕ
  | reent s | sleep s | run s => s
  | _ => 0

/-- `AR_STATUS_STAMP(frame) | SUSP_REENT`: a clone stays one, since `SUSP_CLONE` is `SUSP_EXIT | SUSP_REENT`. -/
def markReent : SuspStatus → SuspStatus
  | clone | exit => clone
  | s => reent s.stamp

/-- The frame has been woken and will sleep again, or be killed. -/
def isActive (s : SuspStatus) : Bool := s.isRun || s.isReent

theorem word_markReent (s : SuspStatus) : s.markReent.word = s.word - s.word % 4 + 1 := by
  cases s <;> simp only [markReent, word, stamp] <;> omega

theorem isSleep_iff_word (s : SuspStatus) : s.isSleep = true ↔ s.word % 4 = 2 := by
  cases s <;> simp only [isSleep, word, reduceCtorEq, false_iff, true_iff] <;> omega

theorem isRun_iff_word (s : SuspStatus) : s.isRun = true ↔ s.word % 4 = 3 := by
  cases s <;> simp only [isRun, word, reduceCtorEq, false_iff, true_iff] <;> omega

end SuspStatus

/-! ## Frames and their chain -/

/-- A suspension frame: `AR_STATUS`, `AR_OUT`, `AR_REEP`, the arguments above it and the local variables below. -/
structure SuspFrame where
  status : SuspStatus
  out : ℕ
  reep : ℕ
  args : List ℕ
  locals : List ℕ
  deriving DecidableEq

/-- What the trail restores: a status word, an event object or a link of an event list. -/
inductive TrailEntry
  | status (frame : ℕ) (old : SuspStatus)
  | out (frame : ℕ) (old : ℕ)
  | link (addr : ℕ) (old : Option ℕ)
  deriving DecidableEq

/-- The frames, the chain of activation records from `AR` on, the suspension frames from `SF` on, `B` and the trail. -/
structure Actors where
  frame : ℕ → SuspFrame
  ar : List ℕ
  sf : List ℕ
  b : ℕ
  localTop : ℕ
  trail : List TrailEntry

def suspFrameSize : ℕ := 8

def dummyEventObject : ℕ := 2

namespace Actors

def status (s : Actors) (f : ℕ) : SuspStatus := (s.frame f).status

def setStatus (s : Actors) (f : ℕ) (st : SuspStatus) : Actors :=
  { s with frame := Function.update s.frame f { s.frame f with status := st } }

def setOut (s : Actors) (f : ℕ) (elm : ℕ) : Actors :=
  { s with frame := Function.update s.frame f { s.frame f with out := elm } }

def pushtrail (s : Actors) (e : TrailEntry) : Actors := { s with trail := e :: s.trail }

def connectWokenFrame (s : Actors) (f : ℕ) : Actors := { s with ar := f :: s.ar }

/-- The common start of the `CONNECT_WOKEN_FRAME` macros for a sleeping frame. -/
def wakeFrame (s : Actors) (f : ℕ) : Actors :=
  if f < s.b ∧ (s.status f).stamp ≠ s.b then
    (s.pushtrail (.status f (s.status f))).setStatus f (.run s.b)
  else
    s.setStatus f (.run (s.status f).stamp)

/-- `CLONE_FRAME`, with the name of the clone. -/
def cloneFrame (s : Actors) (f : ℕ) : Actors × ℕ :=
  let frameC := s.localTop + (s.frame f).args.length
  let copy := { s.frame f with status := .clone, out := (s.frame frameC).out }
  ({ s with
      frame := Function.update s.frame frameC copy
      localTop := frameC + suspFrameSize + (s.frame f).locals.length }, frameC)

def connectWokenFrameIns (s : Actors) (f : ℕ) : Actors :=
  if (s.status f).isSleep then (s.wakeFrame f).connectWokenFrame f
  else if s.status f = .exit then s
  else s.setStatus f (s.status f).markReent

def connectWokenFrameMinMax (s : Actors) (f : ℕ) : Actors :=
  if (s.status f).isSleep then (s.wakeFrame f).connectWokenFrame f else s

def connectWokenFrameDom (s : Actors) (f : ℕ) (elm : ℕ) : Actors :=
  if (s.status f).isSleep then ((s.wakeFrame f).setOut f elm).connectWokenFrame f
  else if (s.status f).isRun then
    let (s, frameC) := s.cloneFrame f
    (s.setOut frameC elm).connectWokenFrame frameC
  else s

/-- `if (TAG(event_object[i]) != ATM) PUSHTRAIL_S_NONATOMIC(AR_OUT_ADDR(frame), ...)`. -/
def trailOut (s : Actors) (f : ℕ) (elm : ℕ) : Actors :=
  if elm % 4 ≠ 2 ∧ f + 7 < s.b then s.pushtrail (.out f (s.frame f).out) else s

/-! ## Instructions -/

/-- `allocate_susp`, after the caller has pushed the arguments. -/
def allocateSusp (s : Actors) (reep : ℕ) (args locals : List ℕ) : Actors :=
  let f := s.localTop + args.length
  { s with
    frame := Function.update s.frame f ⟨.start, dummyEventObject, reep, args, locals⟩
    ar := f :: s.ar
    localTop := f + suspFrameSize + locals.length }

def delay (s : Actors) : Actors :=
  match s.ar with
  | f :: _ => if s.status f = .start then { s with sf := f :: s.sf }.setStatus f (.run 0) else s
  | [] => s

def endDelay (s : Actors) : Actors :=
  match s.ar with
  | f :: _ => if s.status f = .start ∨ s.status f = .clone then s else s.setStatus f .exit
  | [] => s

/-- `AR_IS_TOP`: the locals of the frame end where the free part of the stack begins. -/
def arIsTop (s : Actors) (f : ℕ) : Prop := f + suspFrameSize + (s.frame f).locals.length = s.localTop

instance (s : Actors) (f : ℕ) : Decidable (s.arIsTop f) := inferInstanceAs (Decidable (_ = _))

def popLocal (s : Actors) (f : ℕ) : Actors :=
  if s.arIsTop f then { s with localTop := f - (s.frame f).args.length } else s

def returnDelay (s : Actors) : Actors :=
  match s.ar with
  | [] => s
  | f :: rest =>
    let s := { s with ar := rest }
    match s.status f with
    | .exit => s
    | .clone => s.popLocal f
    | .reent stamp => (s.connectWokenFrame f).setStatus f (.run stamp)
    | st => s.setStatus f (.sleep st.stamp)

end Actors

open Chains

/-! ## The event queue and its handler -/

inductive EventFlag
  | varIns
  | dvarIns
  | dvarMinmax
  | dvarOuterDom
  | dvarDom
  | general
  deriving DecidableEq

structure Machine where
  actors : Actors
  car : ℕ → ℕ
  next : ℕ → Option ℕ
  hb : ℕ
  triggerNo : ℕ
  triggeredCs : ℕ → ℕ
  eventFlag : ℕ → EventFlag
  eventObject : ℕ → ℕ
  triggeringFrame : ℕ → Option ℕ

def maxTriggers : ℕ := 150000

def cdrSlot (sreg : ℕ) : ℕ := sreg + 1

/-! ## Posting -/

def aDvInsCs (dvPtr : ℕ) : ℕ := dvPtr + 2
def aDvMinmaxCs (dvPtr : ℕ) : ℕ := dvPtr + 7
def aDvDomCs (dvPtr : ℕ) : ℕ := dvPtr + 8
def aDvOuterDomCs (dvPtr : ℕ) : ℕ := dvPtr + 9

namespace Machine

def enqueue (m : Machine) (port : ℕ) (flag : EventFlag) : Machine :=
  { m with
    triggerNo := m.triggerNo + 1
    triggeredCs := Function.update m.triggeredCs (m.triggerNo + 1) port
    eventFlag := Function.update m.eventFlag (m.triggerNo + 1) flag }

/-- `triggering_frame[trigger_no] = fp`. -/
def setTriggeringFrame (m : Machine) (fp : Option ℕ) : Machine :=
  { m with triggeringFrame := Function.update m.triggeringFrame m.triggerNo fp }

/-- `event_object[trigger_no] = elm`. -/
def setEventObject (m : Machine) (elm : ℕ) : Machine :=
  { m with eventObject := Function.update m.eventObject m.triggerNo elm }

/-- The common body of the `INSERT_TRIGGER` macros: `full` is what they do when the queue is full. -/
def insertTrigger (m : Machine) (port : ℕ) (flag : EventFlag) (full : Option Machine) (fill : Machine → Machine) :
    Option Machine :=
  if m.next port = none then some m
  else if m.triggerNo ≥ maxTriggers then full
  else some (fill (m.enqueue port flag))

def insertTriggerVarIns (m : Machine) (dvPtr : ℕ) : Option Machine :=
  m.insertTrigger (aDvInsCs dvPtr) .varIns none id

def insertTriggerDvarIns (m : Machine) (dvPtr : ℕ) : Option Machine :=
  m.insertTrigger (aDvInsCs dvPtr) .dvarIns none fun m => m.setTriggeringFrame none

def insertTriggerMinmax (m : Machine) (dvPtr : ℕ) : Option Machine :=
  m.insertTrigger (aDvMinmaxCs dvPtr) .dvarMinmax none fun m => m.setTriggeringFrame none

def insertTriggerMinmaxCheckseed (m : Machine) (dvPtr fp : ℕ) : Option Machine :=
  m.insertTrigger (aDvMinmaxCs dvPtr) .dvarMinmax none fun m => m.setTriggeringFrame (some fp)

def insertTriggerDom (m : Machine) (dvPtr elm : ℕ) : Option Machine :=
  m.insertTrigger (aDvDomCs dvPtr) .dvarDom (some m) fun m => m.setEventObject elm

def insertTriggerOuterDom0 (m : Machine) (dvPtr elm : ℕ) : Option Machine :=
  if m.triggerNo ≥ maxTriggers then some m
  else some ((m.enqueue (aDvOuterDomCs dvPtr) .dvarOuterDom).setEventObject elm)

def insertTriggerOuterDom (m : Machine) (dvPtr elm : ℕ) : Option Machine :=
  if m.next (aDvOuterDomCs dvPtr) = none then some m else m.insertTriggerOuterDom0 dvPtr elm

def insertTriggerEvent (m : Machine) (dvPtr elm : ℕ) : Option Machine :=
  m.insertTrigger (aDvDomCs dvPtr) .general none fun m => m.setEventObject elm

end Machine

/-- The macro, its domain variable, its element or object, and the frame in whose run it is executed. -/
inductive Post
  | varIns (dvPtr : ℕ) (arreg : ℕ)
  | dvarIns (dvPtr : ℕ) (arreg : ℕ)
  | minmax (dvPtr : ℕ) (arreg : ℕ)
  | minmaxCheckseed (dvPtr : ℕ) (arreg : ℕ)
  | dom (dvPtr elm : ℕ) (arreg : ℕ)
  | outerDom0 (dvPtr elm : ℕ) (arreg : ℕ)
  | outerDom (dvPtr elm : ℕ) (arreg : ℕ)
  | event (dvPtr elm : ℕ) (arreg : ℕ)
  deriving DecidableEq

namespace Post

def insert (m : Machine) : Post → Option Machine
  | varIns dv _ => m.insertTriggerVarIns dv
  | dvarIns dv _ => m.insertTriggerDvarIns dv
  | minmax dv _ => m.insertTriggerMinmax dv
  | minmaxCheckseed dv arreg => m.insertTriggerMinmaxCheckseed dv arreg
  | dom dv elm _ => m.insertTriggerDom dv elm
  | outerDom0 dv elm _ => m.insertTriggerOuterDom0 dv elm
  | outerDom dv elm _ => m.insertTriggerOuterDom dv elm
  | event dv elm _ => m.insertTriggerEvent dv elm

def insertAll (m : Machine) (posts : List Post) : Option Machine := posts.foldlM insert m

def raiser : Post → ℕ
  | varIns _ ar | dvarIns _ ar | minmax _ ar | minmaxCheckseed _ ar => ar
  | dom _ _ ar | outerDom0 _ _ ar | outerDom _ _ ar | event _ _ ar => ar

def port : Post → ℕ
  | varIns dv _ | dvarIns dv _ => aDvInsCs dv
  | minmax dv _ | minmaxCheckseed dv _ => aDvMinmaxCs dv
  | dom dv _ _ | event dv _ _ => aDvDomCs dv
  | outerDom0 dv _ _ | outerDom dv _ _ => aDvOuterDomCs dv

def flag : Post → EventFlag
  | varIns .. => .varIns
  | dvarIns .. => .dvarIns
  | minmax .. | minmaxCheckseed .. => .dvarMinmax
  | dom .. => .dvarDom
  | outerDom0 .. | outerDom .. => .dvarOuterDom
  | event .. => .general

def elm : Post → Option ℕ
  | dom _ e _ | outerDom0 _ e _ | outerDom _ e _ | event _ e _ => some e
  | _ => none

def queued (next : ℕ → Option ℕ) : Post → Bool
  | outerDom0 .. => true
  | p => (next p.port).isSome

end Post

/-! ## Handling -/

/-- The node of a frame on the list of an event is visited; `seed` is `triggering_frame[trigger_no]`. -/
def Actors.deliver (s : Actors) (seed : Option ℕ) (flag : EventFlag) (elm f : ℕ) : Actors :=
  match flag with
  | .varIns | .dvarIns => s.connectWokenFrameIns f
  | .dvarMinmax => if some f ≠ seed then s.connectWokenFrameMinMax f else s
  | .dvarOuterDom | .dvarDom | .general => (s.trailOut f elm).connectWokenFrameDom f elm

namespace Machine

/-- `while (ISLIST(op1))` of the events that leave the list as it is. -/
def visitList : ℕ → (Actors → ℕ → Actors) → Option ℕ → Machine → Option Machine
  | _, _, none, m => some m
  | 0, _, some _, _ => none
  | fuel + 1, visit, some sreg, m =>
    visitList fuel visit (m.next (cdrSlot sreg)) { m with actors := visit m.actors (m.car sreg) }

/-- `PUSHTRAIL_H_NONATOMIC(ptr, cdr); FOLLOW(ptr) = op`. -/
def setLink (m : Machine) (ptr : ℕ) (cdr op : Option ℕ) : Machine :=
  { m with
    actors := if ptr < m.hb then m.actors.pushtrail (.link ptr cdr) else m.actors
    next := Function.update m.next ptr op }

/-- `EVENT_GENERAL`: the list is compacted on the way. -/
def visitGeneral : ℕ → (Actors → ℕ → Actors) → ℕ → Option ℕ → Option ℕ → Machine → Option Machine
  | _, _, prevAlivePtr, prevAliveCdr, none, m =>
    some (if prevAliveCdr ≠ none then m.setLink prevAlivePtr prevAliveCdr none else m)
  | 0, _, _, _, some _, _ => none
  | fuel + 1, visit, prevAlivePtr, prevAliveCdr, some sreg, m =>
    if m.actors.status (m.car sreg) ≠ .exit then
      let m := if prevAliveCdr ≠ some sreg then m.setLink prevAlivePtr prevAliveCdr (some sreg) else m
      let m := { m with actors := visit m.actors (m.car sreg) }
      visitGeneral fuel visit (cdrSlot sreg) (m.next (cdrSlot sreg)) (m.next (cdrSlot sreg)) m
    else
      visitGeneral fuel visit prevAlivePtr prevAliveCdr (m.next (cdrSlot sreg)) m

/-- One pass of the loop of `trigger_on_handler`. -/
def handleEvent (fuel : ℕ) (m : Machine) (i : ℕ) : Option Machine :=
  let flag := m.eventFlag i
  let op1 := m.next (m.triggeredCs i)
  let visit := fun (s : Actors) f => s.deliver (m.triggeringFrame m.triggerNo) flag (m.eventObject i) f
  match flag with
  | .general => m.visitGeneral fuel visit (m.triggeredCs i) op1 op1
  | _ => m.visitList fuel visit op1

/-- The events `n`, ..., `1`, from the last one posted to the first. -/
def handleEvents (fuel n : ℕ) (m : Machine) : Option Machine :=
  (List.range' 1 n).reverse.foldlM (handleEvent fuel) m

def triggerOnHandler (fuel : ℕ) (m : Machine) : Option Machine := do
  let m ← m.handleEvents fuel m.triggerNo
  return { m with triggerNo := 0 }

end Machine

end Picat

/-! # What one delivery does -/

namespace Picat

open Function

namespace EventFlag

/-- `EVENT_VAR_INS` and `EVENT_DVAR_INS`. -/
def isIns : EventFlag → Bool
  | varIns | dvarIns => true
  | _ => false

def hasObject : EventFlag → Bool
  | dvarOuterDom | dvarDom | general => true
  | _ => false

theorem hasObject_of_isIns {flag : EventFlag} (h : flag.isIns = true) : flag.hasObject = false := by
  cases flag <;> first | rfl | cases h

theorem isIns_of_hasObject {flag : EventFlag} (h : flag.hasObject = true) : flag.isIns = false := by
  cases flag <;> first | rfl | cases h

/-- The event is handed to the frame: bound events pass over the frame in the last slot. -/
def Reaches (flag : EventFlag) (seed : Option ℕ) (f : ℕ) : Prop := flag = dvarMinmax → seed ≠ some f

end EventFlag

def SuspFrame.outAfter (fr : SuspFrame) (flag : EventFlag) (elm : ℕ) : ℕ := if flag.hasObject then elm else fr.out

def Actors.nextClone (s : Actors) (f : ℕ) : ℕ := s.localTop + (s.frame f).args.length

theorem Actors.ne_nextClone {s : Actors} {g : ℕ} (hg : g < s.localTop) (f : ℕ) : g ≠ s.nextClone f := by
  unfold Actors.nextClone
  omega

def OutEntries (outs : List TrailEntry) : Prop := ∀ e ∈ outs, ∃ g o, e = .out g o

/-- The cases of a delivery to the frame `f`. -/
inductive Delivered (seed : Option ℕ) (flag : EventFlag) (elm f : ℕ) (s s' : Actors) : Prop
  | wokenTrailed (stamp : ℕ) (outs : List TrailEntry) (houts : OutEntries outs) (hreach : flag.Reaches seed f)
      (hsleep : s.status f = .sleep stamp) (hold : f < s.b) (hstamp : stamp ≠ s.b)
      (h : s' = { s with
        frame := update s.frame f
          { s.frame f with status := .run s.b, out := (s.frame f).outAfter flag elm }
        ar := f :: s.ar
        trail := .status f (.sleep stamp) :: (outs ++ s.trail) })
  | wokenUntrailed (stamp : ℕ) (outs : List TrailEntry) (houts : OutEntries outs) (hreach : flag.Reaches seed f)
      (hsleep : s.status f = .sleep stamp) (hnew : f < s.b → stamp = s.b)
      (h : s' = { s with
        frame := update s.frame f
          { s.frame f with status := .run stamp, out := (s.frame f).outAfter flag elm }
        ar := f :: s.ar
        trail := outs ++ s.trail })
  | reentered (hins : flag.isIns = true) (hsleep : (s.status f).isSleep = false) (hexit : s.status f ≠ .exit)
      (h : s' = s.setStatus f (s.status f).markReent)
  | cloned (outs : List TrailEntry) (houts : OutEntries outs) (hobj : flag.hasObject = true)
      (hrun : (s.status f).isRun = true)
      (h : s' = { s with
        frame := update s.frame (s.nextClone f) { s.frame f with status := .clone, out := elm }
        ar := s.nextClone f :: s.ar
        localTop := s.nextClone f + suspFrameSize + (s.frame f).locals.length
        trail := outs ++ s.trail })
  | ignored (outs : List TrailEntry) (houts : OutEntries outs)
      (hsleep : flag.Reaches seed f → (s.status f).isSleep = false)
      (hins : flag.isIns = true → s.status f = .exit) (hrun : flag.hasObject = true → (s.status f).isRun = false)
      (h : s' = { s with trail := outs ++ s.trail })

theorem Actors.trailOut_eq (s : Actors) (f elm : ℕ) :
    ∃ outs, OutEntries outs ∧ s.trailOut f elm = { s with trail := outs ++ s.trail } := by
  unfold Actors.trailOut Actors.pushtrail
  split
  · exact ⟨[.out f (s.frame f).out], fun e he => ⟨f, _, List.mem_singleton.1 he⟩, rfl⟩
  · exact ⟨[], fun e he => absurd he List.not_mem_nil, rfl⟩

theorem outEntries_nil : OutEntries [] := fun _ he => absurd he List.not_mem_nil

theorem SuspStatus.isSleep_iff {st : SuspStatus} : st.isSleep = true ↔ ∃ stamp, st = .sleep stamp := by
  cases st <;> simp [isSleep]

theorem SuspStatus.isRun_iff {st : SuspStatus} : st.isRun = true ↔ ∃ stamp, st = .run stamp := by
  cases st <;> simp [isRun]

namespace Actors

variable {s : Actors} {seed : Option ℕ} {flag : EventFlag} {elm f : ℕ}

theorem wakeFrame_trailed {stamp : ℕ} (hst : s.status f = .sleep stamp) (hold : f < s.b) (hstamp : stamp ≠ s.b) :
    s.wakeFrame f = (s.pushtrail (.status f (.sleep stamp))).setStatus f (.run s.b) := by
  rw [wakeFrame, hst]
  exact if_pos ⟨hold, hstamp⟩

theorem wakeFrame_untrailed {stamp : ℕ} (hst : s.status f = .sleep stamp) (hnew : f < s.b → stamp = s.b) :
    s.wakeFrame f = s.setStatus f (.run stamp) := by
  rw [wakeFrame, hst]
  exact if_neg fun h => h.2 (hnew h.1)

theorem wakes_trailed_or {stamp : ℕ} (s : Actors) (f : ℕ) : (f < s.b ∧ stamp ≠ s.b) ∨ (f < s.b → stamp = s.b) := by
  by_cases hold : f < s.b
  · by_cases hstamp : stamp = s.b
    · exact .inr fun _ => hstamp
    · exact .inl ⟨hold, hstamp⟩
  · exact .inr fun h => absurd h hold

theorem connectWokenFrameIns_delivered (hins : flag.isIns = true) :
    Delivered seed flag elm f s (s.connectWokenFrameIns f) := by
  have hreach : flag.Reaches seed f := fun h => by rw [h] at hins; cases hins
  have hobj := EventFlag.hasObject_of_isIns hins
  have hout : (s.frame f).outAfter flag elm = (s.frame f).out := by rw [SuspFrame.outAfter, hobj]; rfl
  unfold connectWokenFrameIns
  split_ifs with hsleep hexit
  · obtain ⟨stamp, hst⟩ := SuspStatus.isSleep_iff.1 hsleep
    rcases s.wakes_trailed_or f with ⟨hold, hstamp⟩ | hnew
    · refine .wokenTrailed stamp [] outEntries_nil hreach hst hold hstamp ?_
      rw [wakeFrame_trailed hst hold hstamp, hout]
      rfl
    · refine .wokenUntrailed stamp [] outEntries_nil hreach hst hnew ?_
      rw [wakeFrame_untrailed hst hnew, hout]
      rfl
  · exact .ignored [] outEntries_nil (fun _ => by rw [hexit]; rfl) (fun _ => hexit) (fun _ => by rw [hexit]; rfl) rfl
  · exact .reentered hins (by simpa using hsleep) hexit rfl

theorem connectWokenFrameMinMax_delivered (hseed : seed ≠ some f) :
    Delivered seed .dvarMinmax elm f s (s.connectWokenFrameMinMax f) := by
  unfold connectWokenFrameMinMax
  split_ifs with hsleep
  · obtain ⟨stamp, hst⟩ := SuspStatus.isSleep_iff.1 hsleep
    rcases s.wakes_trailed_or f with ⟨hold, hstamp⟩ | hnew
    · refine .wokenTrailed stamp [] outEntries_nil (fun _ => hseed) hst hold hstamp ?_
      rw [wakeFrame_trailed hst hold hstamp]
      rfl
    · refine .wokenUntrailed stamp [] outEntries_nil (fun _ => hseed) hst hnew ?_
      rw [wakeFrame_untrailed hst hnew]
      rfl
  · exact .ignored [] outEntries_nil (fun _ => by simpa using hsleep) (fun h => by cases h) (fun h => by cases h) rfl

theorem connectWokenFrameDom_delivered (hobj : flag.hasObject = true) :
    Delivered seed flag elm f s ((s.trailOut f elm).connectWokenFrameDom f elm) := by
  have hreach : flag.Reaches seed f := fun h => by rw [h] at hobj; cases hobj
  have hins := EventFlag.isIns_of_hasObject hobj
  have hout : (s.frame f).outAfter flag elm = elm := by rw [SuspFrame.outAfter, if_pos hobj]
  obtain ⟨outs, houts, ht⟩ := s.trailOut_eq f elm
  rw [ht]
  unfold connectWokenFrameDom
  split_ifs with hsleep hrun
  · obtain ⟨stamp, hst⟩ := SuspStatus.isSleep_iff.1 hsleep
    rcases Actors.wakes_trailed_or { s with trail := outs ++ s.trail } f with ⟨hold, hstamp⟩ | hnew
    · refine .wokenTrailed stamp outs houts hreach hst hold hstamp ?_
      rw [wakeFrame_trailed hst hold hstamp, hout]
      simp only [setOut, setStatus, pushtrail, connectWokenFrame, update_self, update_idem]
    · refine .wokenUntrailed stamp outs houts hreach hst hnew ?_
      rw [wakeFrame_untrailed hst hnew, hout]
      simp only [setOut, setStatus, connectWokenFrame, update_self, update_idem]
  · refine .cloned outs houts hobj hrun ?_
    simp only [cloneFrame, setOut, connectWokenFrame, nextClone, update_self, update_idem]
  · exact .ignored outs houts (fun _ => Bool.eq_false_iff.2 hsleep) (fun h => by rw [hins] at h; cases h)
      (fun _ => Bool.eq_false_iff.2 hrun) rfl

theorem deliver_delivered (s : Actors) (seed : Option ℕ) (flag : EventFlag) (elm f : ℕ) :
    Delivered seed flag elm f s (s.deliver seed flag elm f) := by
  unfold deliver
  split
  · exact connectWokenFrameIns_delivered rfl
  · exact connectWokenFrameIns_delivered rfl
  · split_ifs with h
    · exact connectWokenFrameMinMax_delivered fun h' => h h'.symm
    · exact .ignored [] outEntries_nil (fun hr => absurd (not_not.1 h).symm (hr rfl)) (fun h => by cases h)
        (fun h => by cases h) rfl
  · exact connectWokenFrameDom_delivered rfl
  · exact connectWokenFrameDom_delivered rfl
  · exact connectWokenFrameDom_delivered rfl

end Actors

/-! ## What a delivery leaves alone -/

theorem SuspStatus.markReent_ne_exit (st : SuspStatus) : st.markReent ≠ .exit := by
  cases st <;> simp [markReent]

namespace Delivered

variable {seed : Option ℕ} {flag : EventFlag} {elm f g : ℕ} {s s' : Actors}

section
variable (h : Delivered seed flag elm f s s')
include h

theorem b_eq : s'.b = s.b := by cases h <;> subst s' <;> rfl

theorem sf_eq : s'.sf = s.sf := by cases h <;> subst s' <;> rfl

theorem localTop_le : s.localTop ≤ s'.localTop := by
  cases h with
  | cloned _ _ _ _ h =>
    rw [h]
    dsimp only [Actors.nextClone]
    omega
  | _ => subst s'; exact le_rfl

theorem frame_of_ne (hg : g < s.localTop) (hne : g ≠ f) : s'.frame g = s.frame g := by
  cases h with
  | cloned _ _ _ _ h =>
    subst s'
    exact update_of_ne (Actors.ne_nextClone hg f) _ _
  | ignored => subst s'; rfl
  | _ => subst s'; exact update_of_ne hne _ _

theorem exit_iff (hg : g < s.localTop) : s'.status g = .exit ↔ s.status g = .exit := by
  by_cases hne : g = f
  · subst g
    cases h with
    | wokenTrailed _ _ _ _ hsleep _ _ h =>
      subst s'
      simp only [Actors.status, update_self, reduceCtorEq, false_iff] at hsleep ⊢
      rw [hsleep]
      exact SuspStatus.noConfusion
    | wokenUntrailed _ _ _ _ hsleep _ h =>
      subst s'
      simp only [Actors.status, update_self, reduceCtorEq, false_iff] at hsleep ⊢
      rw [hsleep]
      exact SuspStatus.noConfusion
    | reentered _ _ hexit h =>
      subst s'
      simp only [Actors.status, Actors.setStatus, update_self] at hexit ⊢
      exact iff_of_false (SuspStatus.markReent_ne_exit _) hexit
    | cloned _ _ _ _ h =>
      subst s'
      simp only [Actors.status, update_of_ne (Actors.ne_nextClone hg f)]
    | ignored _ _ _ _ _ h => subst s'; exact Iff.rfl
  · rw [Actors.status, Actors.status, h.frame_of_ne hg hne]

theorem of_exit (hexit : s.status f = .exit) : s' = { s with trail := s'.trail } := by
  cases h with
  | wokenTrailed _ _ _ _ hsleep _ _ h => rw [hexit] at hsleep; cases hsleep
  | wokenUntrailed _ _ _ _ hsleep _ h => rw [hexit] at hsleep; cases hsleep
  | reentered _ _ hne h => exact absurd hexit hne
  | cloned _ _ _ hrun h => rw [hexit] at hrun; cases hrun
  | ignored _ _ _ _ _ h => subst s'; rfl

end

end Delivered

/-! ## Runs of actors under choice points -/

structure ChoicePoint where
  b : ℕ
  ar : List ℕ
  sf : List ℕ
  t : ℕ
  frame : ℕ → SuspFrame

structure World where
  actors : Actors
  choices : List ChoicePoint

/-- An event reaches a frame that is attached to its list. -/
structure Delivery where
  flag : EventFlag
  elm : ℕ
  frame : ℕ
  deriving DecidableEq

inductive Act
  | allocate (reep : ℕ) (args locals : List ℕ)
  | delay
  | handle (seed : Option ℕ) (ds : List Delivery)
  | endDelay
  | returnDelay
  | returnCommit
  | moveTop (localTop : ℕ)
  | nondet (b size : ℕ)
  | cut (n : ℕ)
  | fail (keep : Bool)

def nondetFrameSize : ℕ := 9

namespace Actors

/-- `return_commit`, which is `return_det` or `return_nondet`. -/
def returnCommit (s : Actors) : Actors :=
  match s.ar with
  | [] => s
  | f :: rest =>
    let s := { s with ar := rest }
    if s.status f = .start ∨ s.status f = .clone then s.popLocal f else s

/-- One word is restored; the links of event lists are no part of the frames. -/
def undoEntry (s : Actors) : TrailEntry → Actors
  | .status f old => s.setStatus f old
  | .out f old => s.setOut f old
  | .link _ _ => s

/-- `UNDO_TRAILING`, down to a trail of `t` entries. -/
def undoTrailing (s : Actors) (t : ℕ) : Actors :=
  let n := s.trail.length - t
  (s.trail.take n).foldl undoEntry { s with trail := s.trail.drop n }

def deliverAll (s : Actors) (seed : Option ℕ) (ds : List Delivery) : Actors :=
  ds.foldl (fun s d => s.deliver seed d.flag d.elm d.frame) s

def inUse (s : Actors) : List ℕ := s.sf ++ s.ar

/-- The first free word after the frame, and the first word of its arguments. -/
def frameEnd (s : Actors) (f : ℕ) : ℕ := f + suspFrameSize + (s.frame f).locals.length

def frameBegin (s : Actors) (f : ℕ) : ℕ := f - (s.frame f).args.length

end Actors

namespace World

/-- `B` after some choice points are gone; below the first one it is at the bottom of the stack. -/
def topB : List ChoicePoint → ℕ
  | c :: _ => c.b
  | [] => 0

/-- The choice points are older than the activation on top of the chain. -/
def NoneLeft (w : World) : Prop := ∀ c ∈ w.choices, c.ar.length < w.actors.ar.length

instance (w : World) : Decidable w.NoneLeft := inferInstanceAs (Decidable (∀ c ∈ w.choices, _))

def step (w : World) : Act → Option World
  | .allocate reep args locals => some { w with actors := w.actors.allocateSusp reep args locals }
  | .delay => if w.NoneLeft then some { w with actors := w.actors.delay } else none
  | .handle seed ds =>
    if ∀ d ∈ ds, d.frame ∈ w.actors.sf then some { w with actors := w.actors.deliverAll seed ds } else none
  | .endDelay => if w.NoneLeft then some { w with actors := w.actors.endDelay } else none
  | .returnDelay =>
    match w.actors.ar with
    | f :: _ =>
      if w.NoneLeft ∧ w.actors.status f ≠ .start then some { w with actors := w.actors.returnDelay } else none
    | [] => none
  | .returnCommit =>
    match w.actors.ar with
    | f :: _ =>
      if w.NoneLeft ∧ (w.actors.status f = .start ∨ w.actors.status f = .clone ∨ w.actors.status f = .exit) then
        some { w with actors := w.actors.returnCommit }
      else none
    | [] => none
  | .moveTop localTop =>
    if (∀ f ∈ w.actors.inUse, w.actors.frameEnd f ≤ localTop) ∧ (∀ c ∈ w.choices, c.b < localTop) then
      some { w with actors := { w.actors with localTop } }
    else none
  | .nondet b size =>
    if w.actors.localTop ≤ b then
      some
        { actors := { w.actors with b, localTop := b + nondetFrameSize + size }
          choices := ⟨b, w.actors.ar, w.actors.sf, w.actors.trail.length, w.actors.frame⟩ :: w.choices }
    else none
  | .cut n =>
    let choices := w.choices.drop n
    some { actors := { w.actors with b := topB choices }, choices }
  | .fail keep =>
    match w.choices with
    | c :: cs =>
      let actors := { w.actors.undoTrailing c.t with ar := c.ar, sf := c.sf }
      if keep then some { actors, choices := c :: cs }
      else some { actors := { actors with b := topB cs }, choices := cs }
    | [] => none

def run (w : World) (acts : List Act) : Option World := acts.foldlM step w

end World

end Picat
