import Picat.Domain.Dvar
import Picat.Event.Deliver

/-!
# Unifying two suspension variables

* `unifySuspvarSuspvar_merges` : no live propagator is lost or doubled, and no mark is left.

A frame is named as in `SuspFrame`, a variable by its address, and an event list is the names in it. Where both
variables have a domain, what is left of the two domains is the business of `unify_dvar_dvar` before the merge.
-/

namespace Picat

open Function List

/-! ## Marks on status words -/

def topBit : BitVec 64 := 0x8000000000000000

def suspExit : BitVec 64 := 4

/-- `AR_STATUS(constr_ar) | TOP_BIT` -/
def mark (status : ℕ → BitVec 64) (f : ℕ) : ℕ → BitVec 64 := update status f (status f ||| topBit)

/-- `AR_STATUS(constr_ar) & ~TOP_BIT` -/
def unmark (status : ℕ → BitVec 64) (f : ℕ) : ℕ → BitVec 64 := update status f (status f &&& ~~~topBit)

/-- The mark is on, or `FRAME_IS_DEAD`. -/
def isDropped (status : ℕ → BitVec 64) (f : ℕ) : Prop := status f &&& topBit ≠ 0 ∨ status f = suspExit

instance (status : ℕ → BitVec 64) (f : ℕ) : Decidable (isDropped status f) := inferInstanceAs (Decidable (_ ∨ _))

/-- `NEW_LIST_NODE(elm, new_cs2, new_cs2)`, unless the element is dropped. -/
def addElm (status : ℕ → BitVec 64) (newCs2 : List ℕ) (elm : ℕ) : List ℕ :=
  if isDropped status elm then newCs2 else elm :: newCs2

/-- The status words of frames whose stamps are addresses of the stack. -/
def statusWords (st : ℕ → SuspStatus) : ℕ → BitVec 64 := fun f => BitVec.ofNat 64 (st f).word

/-! ## Suspension variables -/

/-- The event lists of a variable: `DV_ins_cs`, `DV_minmax_cs`, `DV_dom_cs` and `DV_outer_dom_cs`. -/
inductive EventKind
  | ins
  | minmax
  | dom
  | outerDom
  deriving DecidableEq

/-- What the trail restores: where a variable points to, or the head of an event list. -/
inductive DvTrailEntry
  | var (dv : ℕ) (old : ℕ)
  | cs (dv : ℕ) (k : EventKind) (old : List ℕ)

/-- The frames' status words and the suspension variables; an unbound variable points to itself, and the type of one
with `UN_DOMAIN` is `none`. -/
structure SuspVars where
  status : ℕ → BitVec 64
  var : ℕ → ℕ
  type : ℕ → Option DvType
  cs : ℕ → EventKind → List ℕ
  heapTop : ℕ
  hbreg : ℕ
  trail : List DvTrailEntry
  triggered : List ℕ

namespace SuspVars

/-- `PUSHTRAIL_H_NONATOMIC` -/
def pushtrailH (m : SuspVars) (addr : ℕ) (e : DvTrailEntry) : SuspVars :=
  if addr < m.hbreg then { m with trail := e :: m.trail } else m

/-- How far the head of an event list is from the variable's address: `A_DV_ins_cs` and so on. -/
def headOffset : EventKind → ℕ
  | .ins => 2
  | .minmax => 7
  | .dom => 8
  | .outerDom => 9

def mergeCs (m : SuspVars) (dv : ℕ) (k : EventKind) (cs2 : List ℕ) : SuspVars :=
  let cs1 := m.cs dv k
  -- mark frames in cs1
  let marked := cs1.foldl mark m.status
  let newCs2 := cs2.foldl (addElm marked) cs1
  -- unmark cs1
  let m := { m with status := cs1.foldl unmark marked, heapTop := m.heapTop + 2 * (newCs2.length - cs1.length) }
  if newCs2 ≠ cs1 then
    let m := m.pushtrailH (dv + headOffset k) (.cs dv k cs1)
    { m with cs := update m.cs dv (update (m.cs dv) k newCs2) }
  else m

/-- One event list of `dv_ptr2`, unless it is empty. -/
def mergeKind (dv1 dv2 : ℕ) (m : SuspVars) (k : EventKind) : SuspVars :=
  if m.cs dv2 k ≠ [] then m.mergeCs dv1 k (m.cs dv2 k) else m

/-- `bind_susp_susp` : let `dv2` point to `dv1` -/
def bindSuspSusp (m : SuspVars) (dv1 dv2 : ℕ) : SuspVars :=
  let m := m.pushtrailH dv2 (.var dv2 (m.var dv2))
  let m := { m with var := update m.var dv2 dv1 }
  [.ins, .minmax, .dom, .outerDom].foldl (mergeKind dv1 dv2) m

def insertTriggerVarIns (m : SuspVars) (dv : ℕ) : SuspVars :=
  if m.cs dv .ins ≠ [] then { m with triggered := dv :: m.triggered } else m

/-- `dm_clone`, of the event lists: a new variable on top of the heap, attached to nothing. -/
def dmClone (m : SuspVars) (dv : ℕ) : SuspVars :=
  { m with
    var := update m.var m.heapTop m.heapTop
    type := update m.type m.heapTop (m.type dv)
    cs := update m.cs m.heapTop fun _ => []
    heapTop := m.heapTop + 10 }

def unifyDvarSusp (m : SuspVars) (dv1 dv2 : ℕ) : SuspVars := (m.bindSuspSusp dv1 dv2).insertTriggerVarIns dv1

/-- Both variables point to a copy of `dv`. -/
def unifyClone (m : SuspVars) (dv dv1 dv2 : ℕ) : SuspVars :=
  let top := m.heapTop
  (((m.dmClone dv).bindSuspSusp top dv1).bindSuspSusp top dv2).insertTriggerVarIns top

/-- `unify_dvar_dvar`, once the domains have more than one value in common. -/
def unifyDvarDvar (m : SuspVars) (dv1 dv2 : ℕ) : SuspVars :=
  match m.type dv1, m.type dv2 with
  | some .it, some .it => m.unifyClone (min dv1 dv2) dv1 dv2
  | some .it, _ => m.unifyClone dv2 dv1 dv2
  | _, some .it => m.unifyClone dv1 dv2 dv1
  | _, _ => m.unifyClone (min dv1 dv2) dv1 dv2

def unifySuspvarSuspvar (m : SuspVars) (dv1 dv2 : ℕ) : SuspVars :=
  if dv1 = dv2 then m
  else if m.type dv1 ≠ none then
    if m.type dv2 ≠ none then m.unifyDvarDvar dv1 dv2 else m.unifyDvarSusp dv1 dv2
  else
    if m.type dv2 ≠ none then m.unifyDvarSusp dv2 dv1 else m.unifyClone (min dv1 dv2) dv1 dv2

end SuspVars

/-! ## What a merge leaves -/

theorem foldl_mark (cs : List ℕ) (status : ℕ → BitVec 64) :
    cs.foldl mark status = fun f => if f ∈ cs then status f ||| topBit else status f := by
  induction cs generalizing status with
  | nil => simp
  | cons g cs ih =>
    funext f
    rw [foldl_cons, ih]
    by_cases hfg : f = g
    · subst hfg
      simp [mark, BitVec.or_assoc]
    · simp [mark, hfg]

theorem foldl_unmark (cs : List ℕ) (status : ℕ → BitVec 64) :
    cs.foldl unmark status = fun f => if f ∈ cs then status f &&& ~~~topBit else status f := by
  induction cs generalizing status with
  | nil => simp
  | cons g cs ih =>
    funext f
    rw [foldl_cons, ih]
    by_cases hfg : f = g
    · subst hfg
      simp [unmark, BitVec.and_assoc]
    · simp [unmark, hfg]

def Unmarked (status : ℕ → BitVec 64) : Prop := ∀ f, status f &&& topBit = 0

theorem unmarked_statusWords {st : ℕ → SuspStatus} (h : ∀ f, (st f).word < 2 ^ 63) : Unmarked (statusWords st) := by
  intro f
  apply BitVec.eq_of_getLsbD_eq
  intro i hi
  have htop : topBit.getLsbD i = decide (i = 63) := by
    revert i
    decide
  rw [BitVec.getLsbD_and, htop, show (0 : BitVec 64).getLsbD i = false from BitVec.getLsbD_zero,
    Bool.and_eq_false_iff, decide_eq_false_iff_not]
  by_cases h63 : i = 63
  · apply Or.inl
    subst h63
    rw [statusWords, BitVec.getLsbD_ofNat, Nat.testBit_lt_two_pow (h f), Bool.and_false]
  · exact .inr h63

theorem or_and_not {word bits : BitVec 64} (h : word &&& bits = 0) : (word ||| bits) &&& ~~~bits = word := by
  apply BitVec.eq_of_getLsbD_eq
  intro i hi
  have hbit : (word &&& bits).getLsbD i = false := by rw [h]; exact BitVec.getLsbD_zero
  rw [BitVec.getLsbD_and] at hbit
  rw [BitVec.getLsbD_and, BitVec.getLsbD_or, BitVec.getLsbD_not, decide_eq_true hi, Bool.true_and]
  cases hw : word.getLsbD i <;> cases hb : bits.getLsbD i <;> simp_all

theorem unmark_mark {status : ℕ → BitVec 64} (h : Unmarked status) (cs : List ℕ) :
    cs.foldl unmark (cs.foldl mark status) = status := by
  funext f
  rw [foldl_unmark, foldl_mark]
  by_cases hf : f ∈ cs
  · simp only [hf, if_true]
    exact or_and_not (h f)
  · simp [hf]

/-- The live elements of `cs2` that are not in `cs1`, in reverse order in front of `cs1`. -/
def merged (status : ℕ → BitVec 64) (cs1 cs2 : List ℕ) : List ℕ :=
  (cs2.filter fun f => f ∉ cs1 ∧ status f ≠ suspExit).reverse ++ cs1

theorem merged_nil (status : ℕ → BitVec 64) (cs1 : List ℕ) : merged status cs1 [] = cs1 := rfl

theorem foldl_addElm (status : ℕ → BitVec 64) (cs2 newCs2 : List ℕ) :
    cs2.foldl (addElm status) newCs2 = (cs2.filter fun f => ¬ isDropped status f).reverse ++ newCs2 := by
  induction cs2 generalizing newCs2 with
  | nil => rfl
  | cons f cs2 ih =>
    rw [foldl_cons, ih, addElm]
    by_cases hf : isDropped status f <;> simp [hf]

theorem isDropped_marked {status : ℕ → BitVec 64} (h : Unmarked status) (cs1 : List ℕ) (f : ℕ) :
    isDropped (cs1.foldl mark status) f ↔ f ∈ cs1 ∨ status f = suspExit := by
  rw [isDropped, foldl_mark]
  by_cases hf : f ∈ cs1
  · have htop : (status f ||| topBit) &&& topBit ≠ 0 := by
      intro h0
      have hbit : ((status f ||| topBit) &&& topBit).getLsbD 63 = (0 : BitVec 64).getLsbD 63 := by rw [h0]
      simp [topBit] at hbit
    simp only [hf, if_true, true_or, iff_true]
    exact .inl htop
  · simp [hf, h f]

theorem foldl_addElm_marked {status : ℕ → BitVec 64} (h : Unmarked status) (cs1 cs2 : List ℕ) :
    cs2.foldl (addElm (cs1.foldl mark status)) cs1 = merged status cs1 cs2 := by
  rw [foldl_addElm, merged]
  congr 2
  apply filter_congr
  intro f _
  simp only [isDropped_marked h, not_or, ne_eq]

theorem count_merged (status : ℕ → BitVec 64) (cs1 cs2 : List ℕ) (f : ℕ) : (merged status cs1 cs2).count f =
      if f ∈ cs1 then cs1.count f else if status f = suspExit then 0 else cs2.count f := by
  rw [merged, count_append, count_reverse]
  by_cases hf : f ∈ cs1
  · rw [if_pos hf, count_eq_zero_of_not_mem (by simp [hf]), Nat.zero_add]
  · rw [if_neg hf, count_eq_zero_of_not_mem hf, Nat.add_zero]
    by_cases hdead : status f = suspExit
    · rw [if_pos hdead, count_eq_zero_of_not_mem (by simp [hdead])]
    · rw [if_neg hdead, count_filter (by simp [hf, hdead])]

namespace SuspVars

variable {m : SuspVars} {dv1 dv2 : ℕ}

section
variable (addr : ℕ) (e : DvTrailEntry)
include addr e

@[simp] theorem pushtrailH_status : (m.pushtrailH addr e).status = m.status := by
  rw [pushtrailH]; split_ifs <;> rfl

@[simp] theorem pushtrailH_var : (m.pushtrailH addr e).var = m.var := by
  rw [pushtrailH]; split_ifs <;> rfl

@[simp] theorem pushtrailH_cs : (m.pushtrailH addr e).cs = m.cs := by
  rw [pushtrailH]; split_ifs <;> rfl

end

@[simp] theorem insertTriggerVarIns_status (dv : ℕ) : (m.insertTriggerVarIns dv).status = m.status := by
  rw [insertTriggerVarIns]; split_ifs <;> rfl

@[simp] theorem insertTriggerVarIns_var (dv : ℕ) : (m.insertTriggerVarIns dv).var = m.var := by
  rw [insertTriggerVarIns]; split_ifs <;> rfl

@[simp] theorem insertTriggerVarIns_cs (dv : ℕ) : (m.insertTriggerVarIns dv).cs = m.cs := by
  rw [insertTriggerVarIns]; split_ifs <;> rfl

/-- `m'` is `m` with more propagators in the list `k` of `dv`, at most. -/
structure Took (m m' : SuspVars) (dv : ℕ) (k : EventKind) (cs2 : List ℕ) : Prop where
  status : m'.status = m.status
  var : m'.var = m.var
  cs : m'.cs = update m.cs dv (update (m.cs dv) k (merged m.status (m.cs dv k) cs2))

theorem mergeCs_took (h : Unmarked m.status) (dv : ℕ) (k : EventKind) (cs2 : List ℕ) :
    m.Took (m.mergeCs dv k cs2) dv k cs2 := by
  have hstatus := unmark_mark h (m.cs dv k)
  have hnew := foldl_addElm_marked h (m.cs dv k) cs2
  rw [mergeCs, hstatus, hnew]
  by_cases hsame : merged m.status (m.cs dv k) cs2 = m.cs dv k
  · simp only [hsame, ne_eq, not_true_eq_false, if_false]
    exact ⟨rfl, rfl, by rw [hsame, update_eq_self, update_eq_self]⟩
  · simp only [hsame, ne_eq, not_false_eq_true, if_true]
    exact ⟨by simp, by simp, by simp⟩

theorem mergeKind_took (h : Unmarked m.status) (dv1 dv2 : ℕ) (k : EventKind) :
    m.Took (mergeKind dv1 dv2 m k) dv1 k (m.cs dv2 k) := by
  rw [mergeKind]
  by_cases hnil : m.cs dv2 k = []
  · rw [if_neg (not_not.2 hnil), hnil]
    exact ⟨rfl, rfl, by rw [merged_nil, update_eq_self, update_eq_self]⟩
  · rw [if_pos hnil]
    exact mergeCs_took h dv1 k _

theorem foldl_mergeKind (hne : dv1 ≠ dv2) {ks : List EventKind} (hks : ks.Nodup) (h : Unmarked m.status) :
    (ks.foldl (mergeKind dv1 dv2) m).status = m.status ∧ (ks.foldl (mergeKind dv1 dv2) m).var = m.var ∧
      (ks.foldl (mergeKind dv1 dv2) m).cs = update m.cs dv1 fun k =>
        if k ∈ ks then merged m.status (m.cs dv1 k) (m.cs dv2 k) else m.cs dv1 k := by
  induction ks generalizing m with
  | nil => exact ⟨rfl, rfl, by simp⟩
  | cons k ks ih =>
    rw [nodup_cons] at hks
    have htook := mergeKind_took h dv1 dv2 k
    obtain ⟨hstatus, hvar, hcs⟩ := ih hks.2 (by rw [htook.status]; exact h)
    refine ⟨hstatus.trans htook.status, hvar.trans htook.var, ?_⟩
    rw [foldl_cons, hcs, htook.status, htook.cs, update_idem]
    congr 1
    funext j
    rw [update_of_ne hne.symm, update_self]
    by_cases hj : j = k
    · subst hj
      rw [if_neg hks.1, update_self, if_pos (mem_cons_self ..)]
    · rw [update_of_ne hj]
      simp only [mem_cons, hj, false_or]

/-- `m'` is `m` with `dv2` pointing to `dv1`, which has taken over its event lists. -/
structure Bound (m m' : SuspVars) (dv1 dv2 : ℕ) : Prop where
  status : m'.status = m.status
  var : m'.var = update m.var dv2 dv1
  cs : m'.cs = update m.cs dv1 fun k => merged m.status (m.cs dv1 k) (m.cs dv2 k)

theorem bindSuspSusp_bound (hne : dv1 ≠ dv2) (h : Unmarked m.status) : m.Bound (m.bindSuspSusp dv1 dv2) dv1 dv2 := by
  have hall : ∀ k : EventKind, k ∈ [EventKind.ins, .minmax, .dom, .outerDom] := by
    intro k
    cases k <;> decide
  have hkinds : [EventKind.ins, .minmax, .dom, .outerDom].Nodup := by decide
  let pointed : SuspVars :=
    { m.pushtrailH dv2 (.var dv2 (m.var dv2)) with
      var := update (m.pushtrailH dv2 (.var dv2 (m.var dv2))).var dv2 dv1 }
  have hpointed : Unmarked pointed.status := by
    intro f
    simp only [pointed, pushtrailH_status]
    exact h f
  obtain ⟨hstatus, hvar, hcs⟩ := foldl_mergeKind (m := pointed) hne hkinds hpointed
  simp only [hall, if_true] at hcs
  exact ⟨hstatus.trans (by simp [pointed]), hvar.trans (by simp [pointed]), hcs.trans (by simp [pointed])⟩

/-- `m'` is `m` with `dv1` and `dv2` unified into `s`, whose lists have the propagators of `a` and then those of `b`
that `a` does not have. -/
structure Unified (m m' : SuspVars) (s a b : ℕ) : Prop where
  status : m'.status = m.status
  self : m'.var s = s
  var : ∀ dv, dv = a ∨ dv = b → dv ≠ s → m'.var dv = s
  others : ∀ dv, dv ≠ s → m'.cs dv = m.cs dv
  live : ∀ k f, m.status f ≠ suspExit →
    (m'.cs s k).count f = if f ∈ m.cs a k then (m.cs a k).count f else (m.cs b k).count f
  dead : ∀ k f, m.status f = suspExit → (m'.cs s k).count f = if s = a then (m.cs a k).count f else 0

theorem unifyDvarSusp_unified (hne : dv1 ≠ dv2) (h : Unmarked m.status) (hfree : m.var dv1 = dv1) :
    m.Unified (m.unifyDvarSusp dv1 dv2) dv1 dv1 dv2 := by
  have hb := bindSuspSusp_bound hne h
  have hcount : ∀ k f, ((m.unifyDvarSusp dv1 dv2).cs dv1 k).count f =
      if f ∈ m.cs dv1 k then (m.cs dv1 k).count f else if m.status f = suspExit then 0 else (m.cs dv2 k).count f := by
    intro k f
    rw [unifyDvarSusp, insertTriggerVarIns_cs, hb.cs, update_self, count_merged]
  exact {
    status := by rw [unifyDvarSusp, insertTriggerVarIns_status, hb.status]
    self := by rw [unifyDvarSusp, insertTriggerVarIns_var, hb.var, update_of_ne hne, hfree]
    var := by
      intro dv hdv hs
      obtain rfl := hdv.resolve_left hs
      rw [unifyDvarSusp, insertTriggerVarIns_var, hb.var, update_self]
    others := by
      intro dv hdv
      rw [unifyDvarSusp, insertTriggerVarIns_cs, hb.cs, update_of_ne hdv]
    live := fun k f hf => by rw [hcount, if_neg hf]
    dead := by
      intro k f hf
      rw [hcount, if_pos hf, if_pos rfl]
      split_ifs with hmem
      · rfl
      · exact (count_eq_zero_of_not_mem hmem).symm }

theorem unifyClone_unified (hne : dv1 ≠ dv2) (h : Unmarked m.status) (h1 : dv1 < m.heapTop) (h2 : dv2 < m.heapTop)
    (dv : ℕ) : m.Unified (m.unifyClone dv dv1 dv2) m.heapTop dv1 dv2 := by
  have hb1 : (m.dmClone dv).Bound ((m.dmClone dv).bindSuspSusp m.heapTop dv1) m.heapTop dv1 :=
    bindSuspSusp_bound h1.ne' h
  have hb2 : ((m.dmClone dv).bindSuspSusp m.heapTop dv1).Bound
      (((m.dmClone dv).bindSuspSusp m.heapTop dv1).bindSuspSusp m.heapTop dv2) m.heapTop dv2 :=
    bindSuspSusp_bound h2.ne' (by rw [hb1.status]; exact h)
  have hstatus : ((m.dmClone dv).bindSuspSusp m.heapTop dv1).status = m.status := hb1.status
  have hcs : (m.unifyClone dv dv1 dv2).cs = update m.cs m.heapTop fun k =>
      merged m.status (merged m.status [] (m.cs dv1 k)) (m.cs dv2 k) := by
    rw [unifyClone, insertTriggerVarIns_cs, hb2.cs, hstatus, hb1.cs, update_idem, update_self, update_of_ne h2.ne]
    simp only [dmClone, update_self, update_of_ne h1.ne, update_of_ne h2.ne, update_idem]
  have hvar : (m.unifyClone dv dv1 dv2).var =
      update (update (update m.var m.heapTop m.heapTop) dv1 m.heapTop) dv2 m.heapTop := by
    rw [unifyClone, insertTriggerVarIns_var, hb2.var, hb1.var]
    rfl
  have hcount : ∀ k f, ((m.unifyClone dv dv1 dv2).cs m.heapTop k).count f = if m.status f = suspExit then 0
      else if f ∈ m.cs dv1 k then (m.cs dv1 k).count f else (m.cs dv2 k).count f := by
    intro k f
    have hfirst : (merged m.status [] (m.cs dv1 k)).count f =
        if m.status f = suspExit then 0 else (m.cs dv1 k).count f := by
      rw [count_merged, if_neg not_mem_nil]
    have hmem : f ∈ merged m.status [] (m.cs dv1 k) ↔ m.status f ≠ suspExit ∧ f ∈ m.cs dv1 k := by
      simp [merged, and_comm]
    rw [hcs, update_self, count_merged, hfirst]
    by_cases hdead : m.status f = suspExit
    · simp only [hmem, hdead, ne_eq, not_true_eq_false, false_and, if_true, if_false]
    · simp only [hmem, hdead, ne_eq, not_false_eq_true, true_and, if_false]
  exact {
    status := by rw [unifyClone, insertTriggerVarIns_status, hb2.status, hstatus]
    self := by rw [hvar, update_of_ne h2.ne', update_of_ne h1.ne', update_self]
    var := by
      intro d hd _
      rw [hvar]
      obtain rfl | rfl := hd
      · rw [update_of_ne hne, update_self]
      · rw [update_self]
    others := fun d hd => by rw [hcs, update_of_ne hd]
    live := fun k f hf => by rw [hcount, if_neg hf]
    dead := fun k f hf => by rw [hcount, if_pos hf, if_neg h1.ne'] }

/-- Unification attaches to the survivor `s` every live propagator of either variable, as often as the variable that
comes first had it, drops the dead ones, and leaves the status words and the lists of all other variables alone. -/
theorem unifySuspvarSuspvar_merges (h : Unmarked m.status) (hne : dv1 ≠ dv2) (h1 : dv1 < m.heapTop)
    (h2 : dv2 < m.heapTop) (hfree1 : m.var dv1 = dv1) (hfree2 : m.var dv2 = dv2) :
    ∃ s a b, (a = dv1 ∧ b = dv2 ∨ a = dv2 ∧ b = dv1) ∧ m.Unified (m.unifySuspvarSuspvar dv1 dv2) s a b := by
  have hclone : ∀ dv, m.Unified (m.unifyClone dv dv1 dv2) m.heapTop dv1 dv2 := unifyClone_unified hne h h1 h2
  rw [unifySuspvarSuspvar, if_neg hne]
  split_ifs
  · rw [unifyDvarDvar]
    split
    · exact ⟨_, _, _, .inl ⟨rfl, rfl⟩, hclone _⟩
    · exact ⟨_, _, _, .inl ⟨rfl, rfl⟩, hclone _⟩
    · exact ⟨_, _, _, .inr ⟨rfl, rfl⟩, unifyClone_unified hne.symm h h2 h1 _⟩
    · exact ⟨_, _, _, .inl ⟨rfl, rfl⟩, hclone _⟩
  · exact ⟨_, _, _, .inl ⟨rfl, rfl⟩, unifyDvarSusp_unified hne h hfree1⟩
  · exact ⟨_, _, _, .inr ⟨rfl, rfl⟩, unifyDvarSusp_unified hne.symm h hfree2⟩
  · exact ⟨_, _, _, .inl ⟨rfl, rfl⟩, hclone _⟩

/-- Two variables without domains at 0 and 10, with the propagator 1 in common, and all propagators asleep. -/
def twoVariables : SuspVars where
  status := statusWords fun _ => .sleep 3
  var := id
  type := fun _ => none
  cs := fun dv k => if k = .ins then if dv = 0 then [1, 2] else [3, 1] else []
  heapTop := 20
  hbreg := 0
  trail := []
  triggered := []

theorem unifySuspvarSuspvar_merges_two : ∃ s a b, (a = 0 ∧ b = 10 ∨ a = 10 ∧ b = 0) ∧
      twoVariables.Unified (twoVariables.unifySuspvarSuspvar 0 10) s a b :=
  unifySuspvarSuspvar_merges (unmarked_statusWords fun _ => by decide) (by decide) (by decide) (by decide) rfl rfl

example : (twoVariables.unifySuspvarSuspvar 0 10).cs 20 .ins = [3, 2, 1] := by decide

end SuspVars

end Picat
