import Picat.Domain.Cells
import Picat.Lib.UndoLog

/-!
# Backtracking restores domains

What undoing the trail gives back, over all runs of domain operations and choice points.

* `backtracking_restores` : going back to a choice point restores every variable that was there.
-/

namespace Picat

open UndoLog List

namespace DvHeap

variable {s s' s₁ : DvHeap} {new : List SavedCell} {p dv : ℕ} {tag : TrailTag} {w old : BitVec 64}

/-- The cells after the entries `new` have been undone, the newest one first. -/
def undone (new : List SavedCell) (mem : ℕ → BitVec 64) : ℕ → BitVec 64 :=
  undo SavedCell.addr SavedCell.val new.reverse mem

theorem undone_append (new old : List SavedCell) (mem : ℕ → BitVec 64) :
    undone (new ++ old) mem = undone old (undone new mem) := by
  rw [undone, reverse_append, undo_append]
  rfl

theorem undone_cons (e : SavedCell) (new : List SavedCell) (mem : ℕ → BitVec 64) :
    undone (e :: new) mem = undone new (Function.update mem e.addr e.val) := undone_append [e] new mem

theorem undone_congr {lim : ℕ} {mem mem' : ℕ → BitVec 64} (h : ∀ a < lim, mem a = mem' a) (new : List SavedCell) {a : ℕ}
    (ha : a < lim) : undone new mem a = undone new mem' a := by
  rw [undone, undone, undo_apply, undo_apply, h a ha]

/-! ## Operations -/

/-- The entries `new` have come onto the trail, and undoing them gives the old cells back, up to `hbreg`. -/
structure Logged (s : DvHeap) (new : List SavedCell) (s' : DvHeap) : Prop where
  trail_eq : s'.trail = new ++ s.trail
  undone_eq : ∀ a < s.hbreg, undone new s'.mem a = s.mem a
  hbreg_eq : s'.hbreg = s.hbreg
  forks_eq : s'.forks = s.forks
  nilSym_eq : s'.nilSym = s.nilSym
  heapTop_le : s.heapTop ≤ s'.heapTop

/-- A cell that needs no further entry: it is not older than `hbreg`, or there is one. -/
def Covered (s : DvHeap) (new : List SavedCell) (p : ℕ) : Prop := s.hbreg ≤ p ∨ ∃ e ∈ new, e.addr = p

theorem Logged.refl (s : DvHeap) : Logged s [] s := ⟨rfl, fun _ _ => rfl, rfl, rfl, rfl, Nat.le_refl _⟩

theorem Logged.store (h : Logged s new s') (hp : Covered s new p) (w : BitVec 64) : Logged s new (s'.store p w) where
  trail_eq := h.trail_eq
  undone_eq a ha := by
    rw [← h.undone_eq a ha]
    apply undo_update_of_covered
    rintro rfl
    obtain ⟨e, he, haddr⟩ := hp.resolve_left (Nat.not_le.2 ha)
    exact ⟨e, mem_reverse.2 he, haddr⟩
  hbreg_eq := h.hbreg_eq
  forks_eq := h.forks_eq
  nilSym_eq := h.nilSym_eq
  heapTop_le := h.heapTop_le

theorem Logged.pushtrailc (h : Logged s new s') (p : ℕ) (tag : TrailTag) (hold : old = s'.mem p) :
    Logged s (⟨p, tag, old⟩ :: new) (s'.pushtrailc p tag old) where
  trail_eq := congrArg (List.cons _) h.trail_eq
  undone_eq a ha := by
    rw [← h.undone_eq a ha, undone_cons, hold]
    exact congrArg (fun mem => undone new mem a) (Function.update_eq_self p s'.mem)
  hbreg_eq := h.hbreg_eq
  forks_eq := h.forks_eq
  nilSym_eq := h.nilSym_eq
  heapTop_le := h.heapTop_le

theorem Logged.pushtrailH (h : Logged s new s') (p : ℕ) (tag : TrailTag) (hold : old = s'.mem p) :
    ∃ new', Logged s new' (s'.pushtrailH p tag old) ∧ Covered s new' p ∧ ∀ q, Covered s new q → Covered s new' q := by
  unfold DvHeap.pushtrailH
  split_ifs with hp
  · exact ⟨_, h.pushtrailc p tag hold, .inr ⟨_, mem_cons_self .., rfl⟩,
      fun q hq => hq.imp id (Exists.imp fun e he => ⟨mem_cons_of_mem _ he.1, he.2⟩)⟩
  · exact ⟨new, h, .inl (h.hbreg_eq ▸ Nat.not_lt.1 hp), fun _ hq => hq⟩

def Logs (s s' : DvHeap) : Prop := ∃ new, Logged s new s'

namespace Logs

theorem refl (s : DvHeap) : Logs s s := ⟨[], .refl s⟩

section
variable (h : Logs s s')
include h

theorem hbreg_eq : s'.hbreg = s.hbreg := by
  obtain ⟨_, h⟩ := h
  exact h.hbreg_eq

theorem heapTop_le : s.heapTop ≤ s'.heapTop := by
  obtain ⟨_, h⟩ := h
  exact h.heapTop_le

theorem store (hp : s.hbreg ≤ p) (w : BitVec 64) : Logs s (s'.store p w) := by
  obtain ⟨new, h⟩ := h
  exact ⟨new, h.store (.inl hp) w⟩

theorem pushHeap (hheap : s.hbreg ≤ s.heapTop) (w : BitVec 64) : Logs s (s'.pushHeap w) := by
  obtain ⟨new, hnew⟩ := h.store (hheap.trans h.heapTop_le) w
  exact ⟨new, hnew.trail_eq, hnew.undone_eq, hnew.hbreg_eq, hnew.forks_eq, hnew.nilSym_eq,
    hnew.heapTop_le.trans (Nat.le_succ _)⟩

theorem raise (n : ℕ) : Logs s { s' with heapTop := s'.heapTop + n } := by
  obtain ⟨new, h⟩ := h
  exact ⟨new, h.trail_eq, h.undone_eq, h.hbreg_eq, h.forks_eq, h.nilSym_eq, h.heapTop_le.trans (Nat.le_add_right _ _)⟩

theorem setStatus (status : ℕ → BitVec 64) : Logs s { s' with status := status } := by
  obtain ⟨new, h⟩ := h
  exact ⟨new, h.trail_eq, h.undone_eq, h.hbreg_eq, h.forks_eq, h.nilSym_eq, h.heapTop_le⟩

theorem saveStore (p : ℕ) (hold : old = s'.mem p) (w : BitVec 64) : Logs s (s'.saveStore p old w) := by
  obtain ⟨new, h⟩ := h
  exact ⟨_, (h.pushtrailc p .valAtomic hold).store (.inr ⟨_, mem_cons_self .., rfl⟩) w⟩

theorem pushStore (p : ℕ) (tag : TrailTag) (hold : old = s'.mem p) (w : BitVec 64) :
    Logs s ((s'.pushtrailH p tag old).store p w) := by
  obtain ⟨new, h⟩ := h
  obtain ⟨new', h', hcov, -⟩ := h.pushtrailH p tag hold
  exact ⟨new', h'.store hcov w⟩

end

end Logs

theorem longWord_toInt (w : BitVec 64) : longWord w.toInt = w := BitVec.ofInt_toInt

namespace Logs

section
variable (h : Logs s s')
include h

theorem assignDvar (dv : ℕ) (w : BitVec 64) : Logs s (s'.assignDvar dv w) := h.pushStore dv _ rfl w

theorem le_cell (hdv : ¬ dv < s'.hbreg) (i : ℕ) : s.hbreg ≤ dv + i := by
  rw [h.hbreg_eq] at hdv
  omega

theorem updateFirstLastSize (dv : ℕ) (first last size : ℤ) :
    Logs s (s'.updateFirstLastSize dv (s'.dvFirst dv) first (s'.dvLast dv) last size) := by
  have hlast : longWord (s'.dvLast dv) =
      (s'.saveStore (aDvFirst dv) (longWord (s'.dvFirst dv)) (longWord first)).mem (aDvLast dv) := by
    rw [dvLast, longWord_toInt]
    exact (Function.update_of_ne (by simp [aDvFirst, aDvLast]) _ _).symm
  unfold DvHeap.updateFirstLastSize
  split_ifs with hdv
  · exact ((h.saveStore _ (longWord_toInt _) _).saveStore _ hlast _).saveStore _ rfl _
  · exact ((h.store (h.le_cell hdv 5) _).store (h.le_cell hdv 6) _).store (h.le_cell hdv 4) _

theorem updateFirstSize (dv : ℕ) (first size : ℤ) : Logs s (s'.updateFirstSize dv (s'.dvFirst dv) first size) := by
  unfold DvHeap.updateFirstSize
  split_ifs with hdv
  · exact (h.saveStore _ (longWord_toInt _) _).saveStore _ rfl _
  · exact (h.store (h.le_cell hdv 5) _).store (h.le_cell hdv 4) _

theorem updateLastSize (dv : ℕ) (last size : ℤ) : Logs s (s'.updateLastSize dv (s'.dvLast dv) last size) := by
  unfold DvHeap.updateLastSize
  split_ifs with hdv
  · exact (h.saveStore _ (longWord_toInt _) _).saveStore _ rfl _
  · exact (h.store (h.le_cell hdv 6) _).store (h.le_cell hdv 4) _

theorem updateSize (dv : ℕ) (size : ℤ) : Logs s (s'.updateSize dv (s'.dvSize dv) size) := by
  unfold DvHeap.updateSize
  split_ifs with hdv
  · exact h.saveStore _ (longWord_toInt _) _
  · exact h.store (h.le_cell hdv 4) _

theorem unifyUpdateFirstLastSize (dv : ℕ) (first last size : ℤ) :
    Logs s (s'.unifyUpdateFirstLastSize dv first last size) := by
  unfold DvHeap.unifyUpdateFirstLastSize
  split_ifs
  · exact h.updateFirstLastSize dv first last size
  · exact h.updateFirstSize dv first size
  · exact h.updateLastSize dv last size
  · exact h

end

section
variable (hheap : s.hbreg ≤ s.heapTop)
include hheap

theorem pushMasks (n : ℕ) (h : Logs s s') : Logs s (pushMasks n s') := by
  induction n generalizing s' with
  | zero => exact h
  | succ n ih => exact ih (h.pushHeap hheap _)

theorem newBitVector (h : Logs s s') (dv : ℕ) : Logs s (s'.newBitVector dv) := by
  unfold DvHeap.newBitVector
  exact pushMasks hheap _ (((h.pushStore _ _ rfl _).pushHeap hheap _).pushHeap hheap _)

theorem itToBvWithHole (h : Logs s s') (dv : ℕ) (elm : ℤ) : Logs s (s'.itToBvWithHole dv elm) := by
  have hle := h.heapTop_le
  unfold DvHeap.itToBvWithHole
  exact ((newBitVector hheap h dv).store (by omega) _).updateSize dv _

end

theorem holesLoop : ∀ (k : ℕ) {s' : DvHeap} {wPtr : ℕ} (w : BitVec 64) (offset : ℕ), Logs s s' → s.hbreg ≤ wPtr →
    Logs s (holesLoop k s' wPtr w offset).1 ∧ s.hbreg ≤ (DvHeap.holesLoop k s' wPtr w offset).2.1 := by
  intro k
  induction k with
  | zero => exact fun w offset h hp => ⟨h, hp⟩
  | succ k ih =>
    intro s' wPtr w offset h hp
    unfold DvHeap.holesLoop
    split_ifs
    · exact ih _ _ (h.store hp _) (hp.trans (Nat.le_succ _))
    · exact ih _ _ h hp

theorem itToBvWithIntervalHoles (hheap : s.hbreg ≤ s.heapTop) (h : Logs s s') (dv : ℕ) (intervalStart intervalEnd : ℤ) :
    Logs s (s'.itToBvWithIntervalHoles dv intervalStart intervalEnd) := by
  have hle := h.heapTop_le
  unfold DvHeap.itToBvWithIntervalHoles
  obtain ⟨hloop, hp⟩ := holesLoop (intervalEnd + 1 - intervalStart).toNat
    ((s'.newBitVector dv).mem (s'.heapTop + 2 + s'.bvOffset dv intervalStart / 64)) (s'.bvOffset dv intervalStart % 64)
    (newBitVector hheap h dv) (show s.hbreg ≤ s'.heapTop + 2 + s'.bvOffset dv intervalStart / 64 by omega)
  exact (hloop.store hp _).updateSize dv _

theorem excludeInnerElmBv (h : Logs s s') (dv : ℕ) (elm : ℤ) : Logs s (s'.excludeInnerElmBv dv elm) := by
  unfold DvHeap.excludeInnerElmBv
  simp only
  split_ifs
  · exact h
  · exact (h.pushStore _ _ rfl _).updateSize dv _

end Logs

/-- `last_trailed_addr` can be written without a further entry. -/
def TrailedLast (s : DvHeap) (new : List SavedCell) (lastTrailedAddr : Option ℕ) : Prop :=
  ∀ p ∈ lastTrailedAddr, Covered s new p

theorem excludeStep_logged {wPtr : ℕ} {last : Option ℕ} (h : Logged s new s') (hw : w = s'.mem wPtr)
    (hlast : TrailedLast s new last) (offset : ℕ) (count : ℤ) {r : DvHeap × BitVec 64 × ℤ × Option ℕ}
    (hr : s'.excludeStep wPtr w offset count last = r) :
    ∃ new', Logged s new' r.1 ∧ r.2.1 = r.1.mem wPtr ∧ TrailedLast s new' r.2.2.2 := by
  unfold excludeStep at hr
  simp only at hr
  split_ifs at hr with hbit htrailed
  · obtain ⟨new', h', hcov, -⟩ := h.pushtrailH wPtr .valAtomic hw
    subst hr
    exact ⟨new', h'.store hcov _, (store_mem_self ..).symm, fun p hp => Option.some.inj hp ▸ hcov⟩
  · have hcov : Covered s new wPtr := hlast wPtr (not_not.1 htrailed)
    subst hr
    exact ⟨new, h.store hcov _, (store_mem_self ..).symm, fun p hp => Option.some.inj hp ▸ hcov⟩
  · subst hr
    exact ⟨new, h, hw, hlast⟩

theorem excludeLoop_logs : ∀ (k : ℕ) {s' : DvHeap} {new : List SavedCell} {wPtr : ℕ} {w : BitVec 64} (offset : ℕ)
    (count : ℤ) (last : Option ℕ), Logged s new s' → w = s'.mem wPtr → TrailedLast s new last →
    Logs s (excludeLoop k s' wPtr w offset count last).1 := by
  intro k
  induction k with
  | zero => exact fun offset count last h hw hlast => ⟨_, h⟩
  | succ k ih =>
    intro s' new wPtr w offset count last h hw hlast
    obtain ⟨new', h', hw', hlast'⟩ := excludeStep_logged h hw hlast offset count rfl
    unfold excludeLoop
    simp only
    split_ifs
    · exact ih _ _ _ h' rfl hlast'
    · exact ih _ _ _ h' hw' hlast'

theorem Logs.excludeInnerIntervalBv (h : Logs s s') (dv : ℕ) (from' to' : ℤ) :
    Logs s (s'.excludeInnerIntervalBv dv from' to') := by
  obtain ⟨new, h⟩ := h
  have hloop := excludeLoop_logs (to' + 1 - from').toNat (s'.wordOffset (s'.dvBitVectorPtr dv) from').2.2 (s'.dvSize dv)
    none h (show (s'.wordOffset (s'.dvBitVectorPtr dv) from').1 = _ from rfl) fun p hp => by cases hp
  unfold DvHeap.excludeInnerIntervalBv
  simp only
  split_ifs
  · exact hloop.updateSize dv _
  · exact hloop

/-! ### Routines that may fail -/

/-- If the routine returns, then with `P`. -/
def WhenOk {α : Type} (P : α → Prop) (r : Except Stop α) : Prop := ∀ a, r = .ok a → P a

namespace WhenOk

variable {α β : Type} {P : α → Prop} {a : α}

theorem pure (h : P a) : WhenOk P (Pure.pure a) := fun _ ha => Except.ok.inj ha ▸ h

theorem ok (h : P a) : WhenOk P (.ok a) := pure h

theorem error (e : Stop) : WhenOk P (.error e) := fun _ ha => by cases ha

theorem bind {Q : β → Prop} {r : Except Stop β} {f : β → Except Stop α} (hr : WhenOk Q r) (hf : ∀ b, Q b → WhenOk P (f b)) :
    WhenOk P (r >>= f) := by
  intro a ha
  cases hrun : r with
  | error e =>
    rw [hrun] at ha
    cases ha
  | ok b =>
    rw [hrun] at ha
    exact hf b (hr b hrun) a ha

theorem after {r : Except Stop β} {f : β → Except Stop α} (hf : ∀ b, WhenOk P (f b)) : WhenOk P (r >>= f) :=
  bind (Q := fun _ => True) (fun _ _ => trivial) fun b _ => hf b

theorem ite {p : Prop} [Decidable p] {r r' : Except Stop α} (hr : p → WhenOk P r) (hr' : ¬ p → WhenOk P r') :
    WhenOk P (if p then r else r') := by
  split_ifs with h
  · exact hr h
  · exact hr' h

theorem foldlM {ι : Type} {f : α → ι → Except Stop α} (hf : ∀ a i, P a → WhenOk P (f a i)) (is : List ι) (h : P a) :
    WhenOk P (is.foldlM f a) := by
  induction is generalizing a with
  | nil => exact pure h
  | cons i is ih =>
    rw [foldlM_cons]
    exact (hf a i h).bind fun b hb => ih hb

end WhenOk

variable (hheap : s.hbreg ≤ s.heapTop)

theorem unlessInt_logs {test : ℤ → Bool} {body : Except Stop DvHeap} (h : WhenOk (Logs s) body) :
    WhenOk (Logs s) (s.unlessInt dv test body) := by
  unfold unlessInt
  split_ifs
  · exact .error _
  · exact .ok (.refl s)
  · exact h

include hheap

theorem domainSetFalseNoint_logs (dv : ℕ) (elm : ℤ) : WhenOk (Logs s) (s.domainSetFalseNoint dv elm) := by
  have h := Logs.refl s
  unfold domainSetFalseNoint
  simp only
  split_ifs
  · exact .pure (h.itToBvWithHole hheap dv elm)
  · exact .pure (h.excludeInnerElmBv dv elm)
  · exact .pure (h.assignDvar dv _)
  · exact .after fun elm => .pure (h.updateFirstSize dv elm _)
  · exact .pure (h.assignDvar dv _)
  · exact .after fun elm => .pure (h.updateLastSize dv elm _)
  · exact .pure h

theorem domainSetFalseAux_logs (dv : ℕ) (elm : ℤ) : WhenOk (Logs s) (s.domainSetFalseAux dv elm) :=
  unlessInt_logs (domainSetFalseNoint_logs hheap dv elm)

theorem domainSetFalseBv_logs (dv : ℕ) (elm : ℤ) : WhenOk (Logs s) (s.domainSetFalseBv dv elm) := by
  apply unlessInt_logs
  split_ifs
  · exact .pure ((Logs.refl s).excludeInnerElmBv dv elm)
  · exact domainSetFalseNoint_logs hheap dv elm

omit hheap

theorem domainExcludeFirstBv_logs (dv : ℕ) : WhenOk (Logs s) (s.domainExcludeFirstBv dv) := by
  unfold domainExcludeFirstBv
  simp only
  split_ifs
  · exact .pure ((Logs.refl s).assignDvar dv _)
  · exact .after fun elm => .pure ((Logs.refl s).updateFirstSize dv elm _)

theorem domainExcludeLastBv_logs (dv : ℕ) : WhenOk (Logs s) (s.domainExcludeLastBv dv) := by
  unfold domainExcludeLastBv
  simp only
  split_ifs
  · exact .pure ((Logs.refl s).assignDvar dv _)
  · exact .after fun elm => .pure ((Logs.refl s).updateLastSize dv elm _)

theorem callDomainRegionMinMax_logs (dv : ℕ) (min max : ℤ) :
    WhenOk (Logs s) (s.callDomainRegionMinMax dv (s.dvFirst dv) (s.dvLast dv) min max) := by
  have h := Logs.refl s
  unfold callDomainRegionMinMax
  split_ifs
  · exact .pure (h.assignDvar dv _)
  · exact .after fun _ => .ite (fun _ => .pure (h.assignDvar dv _)) fun _ => .error _
  · exact .pure (h.updateFirstLastSize dv _ _ _)
  · refine .after fun low => .after fun high => .ite (fun _ => .error _) fun _ => .after fun min => ?_
    exact .ite (fun _ => .pure (h.assignDvar dv _)) fun _ => .after fun max => .pure (h.updateFirstLastSize dv _ _ _)

theorem callDomainRegionMin_logs (dv : ℕ) (dvLast min : ℤ) :
    WhenOk (Logs s) (s.callDomainRegionMin dv (s.dvFirst dv) dvLast min) := by
  have h := Logs.refl s
  unfold callDomainRegionMin
  split_ifs
  · exact .error _
  · exact .pure (h.assignDvar dv _)
  · exact .pure (h.updateFirstSize dv _ _)
  · refine .after fun low => .ite (fun _ => .pure (h.assignDvar dv _)) fun _ => ?_
    exact .after fun min => .pure (h.updateFirstSize dv _ _)

theorem callDomainRegionMax_logs (dv : ℕ) (dvFirst max : ℤ) :
    WhenOk (Logs s) (s.callDomainRegionMax dv dvFirst (s.dvLast dv) max) := by
  have h := Logs.refl s
  unfold callDomainRegionMax
  split_ifs
  · exact .error _
  · exact .pure (h.assignDvar dv _)
  · exact .pure (h.updateLastSize dv _ _)
  · refine .after fun high => .ite (fun _ => .pure (h.assignDvar dv _)) fun _ => ?_
    exact .after fun max => .pure (h.updateLastSize dv _ _)

theorem domainRegionNoint_logs (dv : ℕ) (from' to' : ℤ) : WhenOk (Logs s) (s.domainRegionNoint dv from' to') := by
  unfold domainRegionNoint
  simp only
  split_ifs
  · exact .error _
  · exact callDomainRegionMinMax_logs dv _ _
  · exact callDomainRegionMin_logs dv _ _
  · exact callDomainRegionMax_logs dv _ _
  · exact .pure (.refl s)

theorem domainRegionAux_logs (dv : ℕ) (from' to' : ℤ) : WhenOk (Logs s) (s.domainRegionAux dv from' to') :=
  unlessInt_logs (domainRegionNoint_logs dv from' to')

include hheap in
theorem domainExcludeIntervalNoint_logs (dv : ℕ) (from' to' : ℤ) :
    WhenOk (Logs s) (s.domainExcludeIntervalNoint dv from' to') := by
  unfold domainExcludeIntervalNoint
  split_ifs
  · exact domainRegionNoint_logs dv _ _
  · exact domainRegionNoint_logs dv _ _
  · exact .pure ((Logs.refl s).itToBvWithIntervalHoles hheap dv _ _)
  · exact .pure ((Logs.refl s).excludeInnerIntervalBv dv _ _)

include hheap in
theorem domainExcludeIntervalAux_logs (dv : ℕ) (from' to' : ℤ) :
    WhenOk (Logs s) (s.domainExcludeIntervalAux dv from' to') :=
  unlessInt_logs (domainExcludeIntervalNoint_logs hheap dv from' to')

theorem bindSuspValue_logs (dv : ℕ) (op2 : BitVec 64) : WhenOk (Logs s) (s.bindSuspValue dv op2) := by
  have h := (Logs.refl s).pushStore dv .valNonatomic rfl op2
  unfold bindSuspValue
  simp only
  split_ifs
  · exact .pure h
  · exact .after fun _ => .ite (fun _ => .pure h) fun _ => .error _
  · exact .error _

section
variable (hheap : s.hbreg ≤ s.heapTop)
include hheap

theorem addElms_logs (elms : List (BitVec 64)) (newCs2 : BitVec 64) (h : Logs s s') :
    Logs s (addElms s' newCs2 elms).1 := by
  induction elms generalizing s' newCs2 with
  | nil => exact h
  | cons elm elms ih =>
    unfold addElms
    split_ifs
    · exact ih _ h
    · exact ih _ ((h.pushHeap hheap _).pushHeap hheap _)

theorem mergeCs_logs (h : Logs s s') (addrHeadCs1 : ℕ) (cs2 : BitVec 64) :
    WhenOk (Logs s) (s'.mergeCs addrHeadCs1 cs2) := by
  unfold mergeCs
  refine .after fun elms1 => .after fun elms2 => ?_
  have hadd := addElms_logs hheap elms2 (s'.mem addrHeadCs1) (h.setStatus ((elms1.map constrAr).foldl mark s'.status))
  refine .ite (fun _ => .pure ?_) fun _ => .pure ?_
  · exact (hadd.setStatus _).pushStore _ _ rfl _
  · exact hadd.setStatus _

theorem bindSuspSusp_logs (dv1 dv2 : ℕ) : WhenOk (Logs s) (s.bindSuspSusp dv1 dv2) := by
  refine WhenOk.foldlM (fun s' k h => ?_) _ ((Logs.refl s).pushStore dv2 .valNonatomic rfl (ptrWord dv1))
  exact .ite (fun _ => mergeCs_logs hheap h _ _) fun _ => .pure h

theorem dmClone_logs (dv : ℕ) : Logs s (s.dmClone dv) := by
  have hcell : ∀ i, s.hbreg ≤ s.heapTop + i := fun i => by omega
  unfold dmClone
  simp only
  refine Logs.raise ?_ sizeOfDv
  exact (((((((((((Logs.refl s).store (hcell 0) _).store (hcell 1) _).store (hcell 5) _).store (hcell 6) _).store
    (hcell 4) _).store (hcell 2) _).store (hcell 7) _).store (hcell 8) _).store (hcell 9) _).store (hcell 3) _)

theorem insertSuspCall_logs (csAddr : ℕ) (ar : BitVec 64) : Logs s (s.insertSuspCall csAddr ar) := by
  obtain ⟨new, h, hcov, -⟩ := (Logged.refl s).pushtrailH csAddr .valNonatomic rfl
  have hcell : ∀ i, s.hbreg ≤ (s.pushtrailH csAddr .valNonatomic (s.mem csAddr)).heapTop + i := fun i =>
    hheap.trans (h.heapTop_le.trans (Nat.le_add_right _ i))
  exact Logs.raise ⟨new, ((h.store (.inl (hcell 0)) ar).store (.inl (hcell 1)) _).store hcov _⟩ 2

theorem run_logs (op : Op) : WhenOk (Logs s) (s.run op) := by
  cases op with
  | setFalseNoint dv elm => exact domainSetFalseNoint_logs hheap dv elm
  | setFalseAux dv elm => exact domainSetFalseAux_logs hheap dv elm
  | setFalseBv dv elm => exact domainSetFalseBv_logs hheap dv elm
  | excludeFirstBv dv => exact domainExcludeFirstBv_logs dv
  | excludeLastBv dv => exact domainExcludeLastBv_logs dv
  | excludeInnerIntervalBv dv from' to' => exact .pure ((Logs.refl s).excludeInnerIntervalBv dv from' to')
  | excludeIntervalNoint dv from' to' => exact domainExcludeIntervalNoint_logs hheap dv from' to'
  | excludeIntervalAux dv from' to' => exact domainExcludeIntervalAux_logs hheap dv from' to'
  | regionNoint dv from' to' => exact domainRegionNoint_logs dv from' to'
  | regionAux dv from' to' => exact domainRegionAux_logs dv from' to'
  | itToBv dv => exact .pure ((Logs.refl s).newBitVector hheap dv)
  | assignDvar dv value => exact .pure ((Logs.refl s).assignDvar dv value)
  | bindSuspValue dv op2 => exact bindSuspValue_logs dv op2
  | unifyUpdateFirstLastSize dv first last size => exact .pure ((Logs.refl s).unifyUpdateFirstLastSize dv first last size)
  | dmClone dv => exact .pure (dmClone_logs hheap dv)
  | bindSuspSusp dv1 dv2 => exact bindSuspSusp_logs hheap dv1 dv2
  | insertSuspCall csAddr ar => exact .pure (insertSuspCall_logs hheap csAddr ar)

end

/-! ## Runs -/

theorem undoTrail_eq_some {top : ℕ} {trail left : List SavedCell} {mem mem' : ℕ → BitVec 64}
    (h : undoTrail top trail mem = some (left, mem')) :
    ∃ popped, trail = popped ++ left ∧ left.length = top ∧ mem' = undone popped mem := by
  induction trail generalizing mem with
  | nil =>
    unfold undoTrail at h
    split_ifs at h with htop
    cases h
    exact ⟨[], rfl, htop.symm, rfl⟩
  | cons e trail ih =>
    unfold undoTrail at h
    split_ifs at h with htop
    · cases h
      exact ⟨[], rfl, htop, rfl⟩
    · obtain ⟨popped, htrail, hleft, hmem⟩ := ih h
      exact ⟨e :: popped, congrArg (List.cons e) htrail, hleft, by rw [hmem, undone_cons]⟩

theorem undoTrail_append (popped left : List SavedCell) (mem : ℕ → BitVec 64) :
    undoTrail left.length (popped ++ left) mem = some (left, undone popped mem) := by
  induction popped generalizing mem with
  | nil =>
    cases left with
    | nil => rfl
    | cons e left =>
      rw [nil_append, undoTrail, if_pos rfl]
      rfl
  | cons e popped ih =>
    have hne : (e :: (popped ++ left)).length ≠ left.length := by
      rw [length_cons, length_append]
      omega
    rw [cons_append, undoTrail, if_neg hne, ih, undone_cons]

/-- Choice points that are younger than the one on top of `s`, the youngest first. -/
structure Young (s : DvHeap) (young : List Fork) : Prop where
  arH_le : ∀ f ∈ young, s.hbreg ≤ f.arH
  arT_le : ∀ f ∈ young, s.trail.length ≤ f.arT
  sorted : young.Pairwise fun f g => g.arH ≤ f.arH

theorem Young.nil (s : DvHeap) : Young s [] :=
  ⟨fun _ hf => absurd hf not_mem_nil, fun _ hf => absurd hf not_mem_nil, .nil⟩

theorem Young.of_append {gone young : List Fork} (h : Young s (gone ++ young)) : Young s young :=
  ⟨fun f hf => h.arH_le f (mem_append_right _ hf), fun f hf => h.arT_le f (mem_append_right _ hf),
    (pairwise_append.1 h.sorted).2.1⟩

/-- The invariant of runs from `s` on, which has a choice point on top, while this choice point is there. -/
structure Since (s s' : DvHeap) : Prop where
  trail : ∃ new, s'.trail = new ++ s.trail ∧ ∀ a < s.hbreg, undone new s'.mem a = s.mem a
  forks : ∃ young, s'.forks = young ++ s.forks ∧ Young s young
  hbreg : ∀ f ∈ s'.forks.head?, s'.hbreg = f.arH
  heapTop : s'.hbreg ≤ s'.heapTop
  nilSym : s'.nilSym = s.nilSym

/-- `s` has a choice point on top that was made here. -/
structure Fresh (s : DvHeap) : Prop where
  top : ∃ older, s.forks = ⟨s.hbreg, s.trail.length⟩ :: older
  heapTop : s.hbreg = s.heapTop

theorem fresh_nondet (s : DvHeap) : s.nondet.Fresh := ⟨⟨s.forks, rfl⟩, rfl⟩

theorem Fresh.since (h : s.Fresh) : Since s s := by
  obtain ⟨older, hforks⟩ := h.top
  refine ⟨⟨[], rfl, fun _ _ => rfl⟩, ⟨[], rfl, .nil s⟩, fun f hf => ?_, h.heapTop.le, rfl⟩
  rw [hforks, List.head?_cons, Option.mem_some_iff] at hf
  rw [← hf]

namespace Since

section
variable (hs : s.Fresh) (h : Since s s')
include hs h

theorem arH_le {young : List Fork} (hforks : s'.forks = young ++ s.forks)
    (hyoung : Young s young) : s.hbreg ≤ s'.hbreg ∧ ∀ f ∈ young, f.arH ≤ s'.hbreg := by
  obtain ⟨olds, htop⟩ := hs.top
  cases young with
  | nil =>
    have hhead := h.hbreg ⟨s.hbreg, s.trail.length⟩ (by rw [hforks, htop]; rfl)
    exact ⟨hhead.ge, fun f hf => absurd hf not_mem_nil⟩
  | cons g young =>
    rw [h.hbreg g (by rw [hforks]; rfl)]
    exact ⟨hyoung.arH_le g (mem_cons_self ..), forall_mem_cons.2 ⟨Nat.le_refl _, (pairwise_cons.1 hyoung.sorted).1⟩⟩

theorem hbreg_le : s.hbreg ≤ s'.hbreg := by
  obtain ⟨young, hforks, hyoung⟩ := h.forks
  exact (h.arH_le hs hforks hyoung).1

theorem arT_le {f : Fork} {older : List Fork} (hf : s'.forks = f :: older) : s.trail.length ≤ f.arT := by
  obtain ⟨young, hforks, hyoung⟩ := h.forks
  obtain ⟨olds, htop⟩ := hs.top
  cases young with
  | nil =>
    rw [hforks, nil_append, htop] at hf
    obtain ⟨rfl, -⟩ := List.cons.inj hf
    exact Nat.le_refl _
  | cons g young =>
    rw [hforks, cons_append] at hf
    obtain ⟨rfl, -⟩ := List.cons.inj hf
    exact hyoung.arT_le g (mem_cons_self ..)

theorem logs {s'' : DvHeap} (hlogs : Logs s' s'') : Since s s'' := by
  obtain ⟨new', hnew'⟩ := hlogs
  obtain ⟨new, htrail, hundone⟩ := h.trail
  refine ⟨⟨new' ++ new, ?_, fun a ha => ?_⟩, hnew'.forks_eq ▸ h.forks, ?_, ?_, hnew'.nilSym_eq.trans h.nilSym⟩
  · rw [hnew'.trail_eq, htrail, append_assoc]
  · rw [undone_append, ← hundone a ha]
    exact undone_congr (fun b hb => hnew'.undone_eq b (hb.trans_le (h.hbreg_le hs))) new ha
  · rw [hnew'.hbreg_eq, hnew'.forks_eq]
    exact h.hbreg
  · rw [hnew'.hbreg_eq]
    exact h.heapTop.trans hnew'.heapTop_le

theorem nondet : Since s s'.nondet := by
  obtain ⟨new, htrail, hundone⟩ := h.trail
  obtain ⟨young, hforks, hyoung⟩ := h.forks
  obtain ⟨hle, hyoung_le⟩ := h.arH_le hs hforks hyoung
  have hnew : Young s (⟨s'.heapTop, s'.trail.length⟩ :: young) := by
    refine ⟨forall_mem_cons.2 ⟨hle.trans h.heapTop, hyoung.arH_le⟩,
      forall_mem_cons.2 ⟨?_, hyoung.arT_le⟩, pairwise_cons.2 ⟨fun f hf => ?_, hyoung.sorted⟩⟩
    · rw [htrail, length_append]
      exact Nat.le_add_left _ _
    · exact (hyoung_le f hf).trans h.heapTop
  refine ⟨⟨new, htrail, hundone⟩, ⟨_ :: young, congrArg (List.cons _) hforks, hnew⟩, fun f hf => ?_, Nat.le_refl _, h.nilSym⟩
  rw [DvHeap.nondet, List.head?_cons, Option.mem_some_iff] at hf
  rw [← hf]
  rfl

theorem cut {forks : List Fork} {s'' : DvHeap} (hcut : s'.cut forks = some s'')
    (hkeep : s.forks <:+ s''.forks) : Since s s'' := by
  cases forks with
  | nil => cases hcut
  | cons b older =>
    rw [DvHeap.cut] at hcut
    split_ifs at hcut with hsuffix
    cases hcut
    obtain ⟨young, hforks, hyoung⟩ := h.forks
    obtain ⟨young', hyoung'⟩ := hkeep
    obtain ⟨gone, hgone⟩ := hsuffix
    change young' ++ s.forks = b :: older at hyoung'
    have hsplit : young = gone ++ young' := by
      rw [← hyoung', ← append_assoc, hforks] at hgone
      exact (append_cancel_right hgone).symm
    have hold : Young s young' := Young.of_append (hsplit ▸ hyoung)
    obtain ⟨hle, hyoung_le⟩ := h.arH_le hs hforks hyoung
    have hb : b.arH ≤ s'.hbreg := by
      obtain ⟨olds, htop⟩ := hs.top
      cases young' with
      | nil =>
        rw [nil_append, htop] at hyoung'
        obtain ⟨rfl, -⟩ := List.cons.inj hyoung'
        exact hle
      | cons g young' =>
        obtain ⟨rfl, -⟩ := List.cons.inj hyoung'
        exact hyoung_le g (by rw [hsplit]; exact mem_append_right _ (mem_cons_self ..))
    refine ⟨h.trail, ⟨young', hyoung'.symm, hold⟩, fun f hf => ?_, hb.trans h.heapTop, h.nilSym⟩
    rw [List.head?_cons, Option.mem_some_iff] at hf
    rw [← hf]

theorem fail {s'' : DvHeap} (hfail : s'.fail = some s'') : Since s s'' := by
  cases hf : s'.forks with
  | nil =>
    rw [DvHeap.fail, hf] at hfail
    cases hfail
  | cons f older =>
    rw [DvHeap.fail, hf] at hfail
    obtain ⟨⟨left, mem'⟩, hundo, rfl⟩ := Option.map_eq_some_iff.1 hfail
    obtain ⟨popped, htrail', hleft, rfl⟩ := undoTrail_eq_some hundo
    obtain ⟨new, htrail, hundone⟩ := h.trail
    have hlen : s.trail.length ≤ left.length := by
      rw [hleft]
      exact h.arT_le hs hf
    obtain ⟨new', rfl⟩ : s.trail <:+ left :=
      suffix_of_suffix_length_le ⟨new, htrail.symm⟩ ⟨popped, htrail'.symm⟩ hlen
    refine ⟨⟨new', rfl, fun a ha => ?_⟩, hf ▸ h.forks, hf ▸ h.hbreg, Nat.le_refl _, h.nilSym⟩
    have hsplit : new = popped ++ new' := by
      rw [htrail, ← append_assoc] at htrail'
      exact append_cancel_right htrail'
    rw [← hundone a ha, hsplit, undone_append]

theorem step {s'' : DvHeap} (hstep : DvStep s' s'') (hkeep : s.forks <:+ s''.forks) : Since s s'' := by
  cases hstep with
  | op op hrun => exact h.logs hs (run_logs h.heapTop op s'' hrun)
  | nondet => exact h.nondet hs
  | cut forks hcut => exact h.cut hs hcut hkeep
  | fail hfail => exact h.fail hs hfail

theorem backtrack : ∃ t, (s'.cut s.forks).bind DvHeap.fail = some t ∧ t.trail = s.trail ∧ t.heapTop = s.heapTop ∧
      t.nilSym = s.nilSym ∧ ∀ a < s.heapTop, t.mem a = s.mem a := by
  obtain ⟨older, htop⟩ := hs.top
  obtain ⟨new, htrail, hundone⟩ := h.trail
  obtain ⟨young, hforks, -⟩ := h.forks
  have hundo : undoTrail s.trail.length s'.trail s'.mem = some (s.trail, undone new s'.mem) := by
    rw [htrail]
    exact undoTrail_append new s.trail s'.mem
  have hcut : s'.cut s.forks = some { s' with hbreg := s.hbreg, forks := s.forks } := by
    rw [htop, DvHeap.cut, if_pos (htop ▸ ⟨young, hforks.symm⟩)]
  refine ⟨{ s' with hbreg := s.hbreg, forks := s.forks, heapTop := s.hbreg, trail := s.trail, mem := undone new s'.mem },
    ?_, rfl, hs.heapTop, h.nilSym, hs.heapTop ▸ hundone⟩
  rw [hcut, Option.bind_some, DvHeap.fail]
  simp only [htop, hundo, Option.map_some]

end

end Since

/-! ## Variables -/

/-- An event list, all of its nodes below the top of the heap. -/
inductive IsEventList (s : DvHeap) : BitVec 64 → List (BitVec 64) → Prop
  | nil {lst : BitVec 64} (h : isListWord lst = false) : IsEventList s lst []
  | cons {lst : BitVec 64} {elms : List (BitVec 64)} (h : isListWord lst = true) (hlt : untaggedAddr lst + 1 < s.heapTop)
      (htail : IsEventList s (s.mem (untaggedAddr lst + 1)) elms) :
      IsEventList s lst (s.mem (untaggedAddr lst) :: elms)

/-- The record of the variable and its bit vector lie below the top of the heap. -/
structure Allocated (s : DvHeap) (dv : ℕ) : Prop where
  record : dv + sizeOfDv ≤ s.heapTop
  header : s.isItDomain dv = false → s.dvBitVectorPtr dv + 2 ≤ s.heapTop
  words : s.isItDomain dv = false →
    s.dvBitVectorPtr dv + 2 + (s.bitVector (s.dvBitVectorPtr dv)).words.length ≤ s.heapTop

/-- The variable is what it was: its binding, its type with the bit vector, its bounds, its size and its event lists. -/
structure SameVariable (t s : DvHeap) (dv : ℕ) : Prop where
  binding : t.mem dv = s.mem dv
  dvar_eq : t.dvar dv = s.dvar dv
  lists : ∀ k elms, t.IsEventList (t.mem (aDvCs dv k)) elms ↔ s.IsEventList (s.mem (aDvCs dv k)) elms

variable {t : DvHeap}

theorem IsEventList.congr (htop : t.heapTop = s.heapTop) (hmem : ∀ a < s.heapTop, t.mem a = s.mem a) {lst : BitVec 64}
    {elms : List (BitVec 64)} (h : t.IsEventList lst elms) : s.IsEventList lst elms := by
  induction h with
  | nil h => exact .nil h
  | cons h hlt htail ih =>
    rw [htop] at hlt
    rw [hmem _ (by omega)]
    rw [hmem _ hlt] at ih
    exact .cons h hlt ih

theorem bitVector_congr {bv : ℕ} (hmem : ∀ a < s.heapTop, t.mem a = s.mem a) (hheader : bv + 2 ≤ s.heapTop)
    (hwords : bv + 2 + (s.bitVector bv).words.length ≤ s.heapTop) : t.bitVector bv = s.bitVector bv := by
  have hlow : t.mem bv = s.mem bv := hmem bv (by omega)
  have hup : t.mem (bv + 1) = s.mem (bv + 1) := hmem _ (by omega)
  simp only [bitVector, length_map, length_range] at hwords
  unfold bitVector
  rw [hlow, hup]
  congr 1
  refine map_congr_left fun i hi => hmem _ ?_
  rw [mem_range] at hi
  omega

theorem Allocated.same {dv : ℕ} (h : s.Allocated dv) (htop : t.heapTop = s.heapTop) (hnil : t.nilSym = s.nilSym)
    (hmem : ∀ a < s.heapTop, t.mem a = s.mem a) : t.SameVariable s dv := by
  have hrecord := h.record
  have hcell : ∀ i < sizeOfDv, t.mem (dv + i) = s.mem (dv + i) := fun i hi => hmem _ (by omega)
  have htype : t.isItDomain dv = s.isItDomain dv := by
    rw [isItDomain, isItDomain, aDvType, hcell 1 (by decide)]
  have hptr : t.dvBitVectorPtr dv = s.dvBitVectorPtr dv := by
    rw [dvBitVectorPtr, dvBitVectorPtr, aDvType, hcell 1 (by decide)]
  have hcs : ∀ k, t.mem (aDvCs dv k) = s.mem (aDvCs dv k) := fun k => by
    cases k <;> exact hcell _ (by decide)
  have hbv : (if t.isItDomain dv then DvType.it else .bv (t.bitVector (t.dvBitVectorPtr dv))) =
      if s.isItDomain dv then .it else .bv (s.bitVector (s.dvBitVectorPtr dv)) := by
    rw [htype, hptr]
    by_cases hit : s.isItDomain dv = true
    · rw [if_pos hit, if_pos hit]
    · have hbits := Bool.eq_false_iff.2 hit
      rw [if_neg hit, if_neg hit, bitVector_congr hmem (h.header hbits) (h.words hbits)]
  have hvar : t.mem dv = s.mem dv := hcell 0 (by decide)
  have hfirst : t.mem (aDvFirst dv) = s.mem (aDvFirst dv) := hcell 5 (by decide)
  have hlast : t.mem (aDvLast dv) = s.mem (aDvLast dv) := hcell 6 (by decide)
  have hsize : t.mem (aDvSize dv) = s.mem (aDvSize dv) := hcell 4 (by decide)
  refine ⟨hvar, ?_, fun k elms => ?_⟩
  · unfold dvar dvFirst dvLast dvSize
    rw [hbv, hvar, hfirst, hlast, hsize, hcs, hnil]
  · rw [hcs k]
    exact ⟨IsEventList.congr htop hmem, IsEventList.congr htop.symm fun a ha => (hmem a (htop ▸ ha)).symm⟩

end DvHeap

/-- From the creation of a choice point on, whatever is done to variables and to choice points: as long as it has not been
cut, undoing the trail to it restores every variable that was there, bit by bit, with its event lists and its binding. -/
theorem backtracking_restores {s s' : DvHeap} (hrun : DvRun s.nondet.forks s.nondet s') :
    ∃ t, (s'.cut s.nondet.forks).bind DvHeap.fail = some t ∧ t.trail = s.trail ∧
      (∀ a < s.heapTop, t.mem a = s.mem a) ∧ ∀ dv, s.Allocated dv → t.SameVariable s dv := by
  have hsince : s.nondet.Since s' := by
    induction hrun with
    | refl => exact (DvHeap.fresh_nondet s).since
    | tail _ hstep ih => exact ih.step (DvHeap.fresh_nondet s) hstep.1 hstep.2
  obtain ⟨t, hback, htrail, htop, hnil, hmem⟩ := hsince.backtrack (DvHeap.fresh_nondet s)
  exact ⟨t, hback, htrail, hmem, fun dv hdv => hdv.same htop hnil hmem⟩

/-- A variable with the domain `0..9` at the address `0`, and nothing else. -/
def zeroToNine : DvHeap where
  mem := fun a => [ptrWord 0 ||| 0x8000000000000001, itDomain, 2, 2, 10, 0, 9, 2, 2, 2].getD a 0
  status := fun _ => 0
  nilSym := 2
  heapTop := 10
  hbreg := 0
  trail := []
  forks := []

/-- After a choice point `5` is excluded, so that the interval becomes a vector, and after a second one `7`. -/
theorem backtracking_restores_zeroToNine :
    ∃ t, (((zeroToNine.nondet.itToBvWithHole 0 5).nondet.excludeInnerElmBv 0 7).cut zeroToNine.nondet.forks).bind
        DvHeap.fail = some t ∧ t.trail = [] ∧ t.SameVariable zeroToNine 0 := by
  have hhole : DvRun zeroToNine.nondet.forks zeroToNine.nondet (zeroToNine.nondet.itToBvWithHole 0 5) :=
    .single ⟨.op (.setFalseNoint 0 5) rfl, suffix_refl _⟩
  have hfork : DvRun zeroToNine.nondet.forks zeroToNine.nondet (zeroToNine.nondet.itToBvWithHole 0 5).nondet :=
    hhole.tail ⟨.nondet _, suffix_cons _ _⟩
  obtain ⟨t, hback, htrail, -, hsame⟩ := backtracking_restores
    (hfork.tail ⟨.op (.setFalseNoint 0 7) rfl, suffix_cons _ _⟩ :
      DvRun _ _ ((zeroToNine.nondet.itToBvWithHole 0 5).nondet.excludeInnerElmBv 0 7))
  exact ⟨t, hback, htrail, hsame 0 ⟨by decide, by decide, by decide⟩⟩

end Picat
