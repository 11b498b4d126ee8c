import Picat.Lib.BitScan
import Picat.Lib.UndoLog

/-!
# The trail

An entry of the trail is two words, the tagged address of a cell and the value that the cell had. The trail grows downwards,
and the segment of a choice point lies between its `AR_T` and the one of the next younger choice point, or `trail_top`.

* `compactLoop_run` : what the loop leaves.
-/

namespace Picat.Trail

open BitScan UndoLog Function List

/-- `BPLONG` -/
abbrev Word := BitVec 64

def untagged3 (op : Word) : Word := op &&& 0xFFFFFFFFFFFFFFFC#64

def tag (op : Word) : Word := op &&& 0x8000000000000003#64

def trailVar : Word := 0

def trailValAtomic : Word := 1

/-- Positions in the trail are counted in words. `arB`, `arH` and `arT` are the fields of the choice points, and `sfregTop`
is `AR_TOP(sfreg)`. -/
structure State where
  breg : Word
  sfregTop : Word
  stackLowAddr : Word
  heapTop : Word
  trailUpAddr : ℕ
  trailTop : ℕ
  trail : ℕ → Word
  arB : Word → Word
  arH : Word → Word
  arT : Word → ℕ

/-- `UNDOTRAIL`, from the top `t` of the trail on. The loop ends at `top` only, so it runs off the trail when it misses it. -/
def undoTrail (trail : ℕ → Word) (t top : ℕ) (mem : Word → Word) : Option (Word → Word) :=
  if t = top then some mem
  else if t < top then
    undoTrail trail (t + 2) top (update mem (untagged3 (trail (t + 1))) (trail (t + 2)))
  else none
termination_by top - t

/-- The loop from `currT` down to `bottom`. `keep` says whether the entry at `currT` is preserved; it is none where the
source leaves its memory. -/
def compactLoop {σ : Type} (keep : σ → (ℕ → Word) → ℕ → Option (Bool × σ)) (bottom : ℕ) (s : σ) (trail : ℕ → Word)
    (trailTop currT : ℕ) : Option (σ × (ℕ → Word) × ℕ) :=
  if bottom < currT then
    match keep s trail currT with
    | none => none
    | some (false, s) => compactLoop keep bottom s trail trailTop (currT - 2)
    | some (true, s) =>
      -- `*trail_top-- = FOLLOW(curr_t); *trail_top-- = op`
      let op := trail (currT - 1)
      let trail := update trail trailTop (trail currT)
      let trail := update trail (trailTop - 1) op
      compactLoop keep bottom s trail (trailTop - 2) (currT - 2)
  else some (s, trail, trailTop)
termination_by currT

/-! ## Duplicates -/

def alreadyTrailed (trail : ℕ → Word) (addr : Word) (fromPtr toPtr : ℕ) : Bool :=
  if toPtr < fromPtr then
    if untagged3 (trail toPtr) = addr then true else alreadyTrailed trail addr fromPtr (toPtr + 2)
  else false
termination_by fromPtr - toPtr

section
variable (g : State)

def squareKeep (_ : Unit) (trail : ℕ → Word) (currT : ℕ) : Option (Bool × Unit) :=
  let op := trail (currT - 1)
  let untaggedAddr := untagged3 op
  if tag op = trailVar ∧ untaggedAddr < g.sfregTop then some (true, ())
  else some (!alreadyTrailed trail untaggedAddr (g.arT g.breg) (currT + 1), ())

def eliminateDuplicatedTrailInTopSegmentSquare : Option State :=
  (compactLoop (squareKeep g) g.trailTop () g.trail (g.arT g.breg) (g.arT g.breg)).map fun r =>
    { g with trail := r.2.1, trailTop := r.2.2 }

/-- The place of the bit for `addr`. -/
def maskOffset (addr base : Word) : ℕ := (addr - base).toNat / 8

def gcIsMarked (mask : List Word) (addr base : Word) : Option Bool :=
  let offset := maskOffset addr base
  mask[offset / 64]?.map fun word => decide (1#64 <<< (offset % 64) &&& word = 1#64 <<< (offset % 64))

def gcSetMaskBit (mask : List Word) (addr base : Word) : Option (List Word) :=
  let offset := maskOffset addr base
  mask[offset / 64]?.map fun word => mask.set (offset / 64) (word ||| 1#64 <<< (offset % 64))

def isHeapReference (ptr : Word) : Bool := g.stackLowAddr ≤ ptr && ptr ≤ g.heapTop

/-- The mask area and `last_checked_addr`. -/
structure Linear where
  mask : List Word
  lastCheckedAddr : Word

def linearKeep (s : Linear) (trail : ℕ → Word) (currT : ℕ) : Option (Bool × Linear) :=
  let op := trail (currT - 1)
  let untaggedAddr := untagged3 op
  if isHeapReference g untaggedAddr then
    match gcIsMarked s.mask untaggedAddr g.stackLowAddr with
    | none => none
    | some true => some (false, s)
    | some false => (gcSetMaskBit s.mask untaggedAddr g.stackLowAddr).map fun mask => (true, { s with mask := mask })
  else if tag op = trailValAtomic ∨ tag op = trailVar ∧ untaggedAddr < g.sfregTop then some (true, s)
  else if s.lastCheckedAddr = untaggedAddr then some (false, s)
  else
    some (!alreadyTrailed trail untaggedAddr (g.arT g.breg) (currT + 1), { s with lastCheckedAddr := untaggedAddr })

def maskSize : ℕ := (g.arH g.breg - g.stackLowAddr).toNat / 64 + 2

/-- The linear routine, with what it returns. `malloc` says for which sizes `allocateMaskArea` finds room. -/
def eliminateDuplicatedTrailInTopSegmentLinear (malloc : ℕ → Bool) : Option (Bool × State) :=
  if malloc (maskSize g) then
    (compactLoop (linearKeep g) g.trailTop ⟨List.replicate (maskSize g) 0#64, 0⟩ g.trail (g.arT g.breg)
      (g.arT g.breg)).map fun r => (true, { g with trail := r.2.1, trailTop := r.2.2 })
  else some (false, { g with trailTop := g.arT g.breg })

def eliminateDuplicatedTrailInTopSegment (malloc : ℕ → Bool) : Option (Bool × State) :=
  if g.arT g.breg - g.trailTop < 200 then (eliminateDuplicatedTrailInTopSegmentSquare g).map fun g => (true, g)
  else eliminateDuplicatedTrailInTopSegmentLinear g malloc

end

/-! ## Packing -/

/-- The cells that are younger than the choice point `f`. -/
def younger (g : State) (f addr : Word) : Bool := addr < f && g.arH f ≤ addr

def packKeep (g : State) (f : Word) (_ : Unit) (trail : ℕ → Word) (currT : ℕ) : Option (Bool × Unit) :=
  some (!younger g f (untagged3 (trail (currT - 1))), ())

/-- The choice points from `f` on, each with the end of its segment, the last one added in front. The loop ends at the
first that is its own `AR_B`, which is not added unless it is `breg`. -/
def queueChoicePoints (g : State) (f f1 : Word) (trailTop : ℕ) (queue : List (Word × ℕ)) : Option (List (Word × ℕ)) :=
  let queue := (f, trailTop) :: queue
  if f1 = g.arB f1 then some queue
  else if f < f1 then queueChoicePoints g f1 (g.arB f1) (g.arT f) queue
  else none
termination_by 2 ^ 64 - f.toNat
decreasing_by
  have hlt : f.toNat < f1.toNat := by assumption
  exact Nat.sub_lt_sub_left (hlt.trans f1.isLt) hlt

/-- The segment of `f`, down to `cont`. -/
def packSegment (g : State) (f : Word) (cont : ℕ) : Option State :=
  (compactLoop (packKeep g f) cont () g.trail g.trailTop (g.arT f)).map fun r =>
    { g with trail := r.2.1, trailTop := r.2.2, arT := update g.arT f g.trailTop }

def packQueue (g : State) : List (Word × ℕ) → Option State
  | [] => some g
  | (f, cont) :: queue => (packSegment g f cont).bind fun g => packQueue g queue

def packEntireTrail (g : State) : Option State :=
  (queueChoicePoints g g.breg (g.arB g.breg) g.trailTop []).bind fun queue =>
    packQueue { g with trailTop := g.trailUpAddr } queue

/-! ## Segments of the trail -/

abbrev Entry := Word × Word

def Entry.addr (e : Entry) : Word := untagged3 e.1

/-- The `n` entries above the position `lo`, the oldest one first. -/
def segment (trail : ℕ → Word) (lo : ℕ) : ℕ → List Entry
  | 0 => []
  | n + 1 => (trail (lo + 2 * n + 1), trail (lo + 2 * n + 2)) :: segment trail lo n

variable {trail trail' : ℕ → Word} {lo : ℕ}

theorem segment_add (n m : ℕ) : segment trail lo (n + m) = segment trail (lo + 2 * n) m ++ segment trail lo n := by
  induction m with
  | zero => rfl
  | succ m ih =>
    rw [← Nat.add_assoc, segment, ih, segment, cons_append]
    congr 3 <;> ring

theorem segment_succ (n : ℕ) :
    segment trail lo (n + 1) = segment trail (lo + 2) n ++ [(trail (lo + 1), trail (lo + 2))] := by
  rw [Nat.add_comm, segment_add]
  rfl

theorem segment_congr {n : ℕ} (h : ∀ i, lo < i → i ≤ lo + 2 * n → trail i = trail' i) :
    segment trail lo n = segment trail' lo n := by
  induction n with
  | zero => rfl
  | succ n ih =>
    rw [segment, segment, h _ (by omega) (by omega), h _ (by omega) (by omega), ih fun i hi hin => h i hi (by omega)]

theorem undoTrail_segment (n : ℕ) (mem : Word → Word) :
    undoTrail trail lo (lo + 2 * n) mem = some (undo Entry.addr Prod.snd (segment trail lo n) mem) := by
  induction n generalizing lo mem with
  | zero =>
    rw [undoTrail, if_pos (by rfl)]
    rfl
  | succ n ih =>
    have htop : lo + 2 * (n + 1) = lo + 2 + 2 * n := by ring
    rw [undoTrail, if_neg (by omega), if_pos (by omega), htop, ih, segment_succ, undo_append]
    rfl

theorem alreadyTrailed_iff (addr : Word) (n : ℕ) :
    alreadyTrailed trail addr (lo + 2 * n) (lo + 1) = true ↔ ∃ e ∈ segment trail lo n, e.addr = addr := by
  induction n generalizing lo with
  | zero =>
    rw [alreadyTrailed, if_neg (by omega)]
    simp [segment]
  | succ n ih =>
    have htop : lo + 2 * (n + 1) = lo + 2 + 2 * n := by ring
    have hnext : lo + 1 + 2 = lo + 2 + 1 := by ring
    rw [alreadyTrailed, if_pos (by omega), segment_succ]
    simp only [mem_append, mem_singleton, or_and_right, exists_or, exists_eq_left]
    split_ifs with haddr
    · exact iff_of_true rfl (.inr haddr)
    · rw [htop, hnext, ih]
      exact ⟨.inl, fun h => h.resolve_right haddr⟩

/-! ## The loop -/

/-- The trail while a segment that begins at `hi` is gone through: the entries `done` have been met, and `kept` stand below
`top`. `before` is the trail as it was. -/
structure Compacting (before : ℕ → Word) (hi top : ℕ) (trail : ℕ → Word) (trailTop currT : ℕ) (done kept : List Entry) :
    Prop where
  met : ∃ k, hi = currT + 2 * k ∧ done = segment before currT k
  written : ∃ m, top = trailTop + 2 * m ∧ kept = segment trail trailTop m
  le : currT ≤ trailTop
  below : ∀ i ≤ currT, trail i = before i
  above : ∀ i, top < i → trail i = before i
  -- in a segment that stays at its place, the entries that were moved up or dropped are still the ones met
  stale : top = hi → ∃ k, hi = currT + 2 * k ∧ ∀ e ∈ segment trail currT k, e ∈ done

section
variable {before : ℕ → Word} {hi top trailTop c : ℕ} {done kept : List Entry}

theorem compacting_start (hle : hi ≤ top) : Compacting before hi top before top hi [] [] :=
  ⟨⟨0, rfl, rfl⟩, ⟨0, rfl, rfl⟩, hle, fun _ _ => rfl, fun _ _ => rfl, fun _ => ⟨0, rfl, fun _ h => h⟩⟩

section
variable (C : Compacting before hi top trail trailTop (c + 2) done kept)
include C

theorem Compacting.met_succ :
    ∃ k, hi = c + 2 * k ∧ done ++ [(before (c + 1), before (c + 2))] = segment before c k := by
  obtain ⟨k, hk, hdone⟩ := C.met
  refine ⟨k + 1, by omega, ?_⟩
  rw [hdone, segment_succ]

theorem Compacting.stale_succ (htop : top = hi) :
    ∃ k, hi = c + 2 * k ∧ ∀ e ∈ segment trail c k, e ∈ done ++ [(before (c + 1), before (c + 2))] := by
  obtain ⟨k, hk, hstale⟩ := C.stale htop
  refine ⟨k + 1, by omega, fun e he => ?_⟩
  rw [segment_succ, mem_append, C.below _ (by omega), C.below _ (by omega)] at he
  rw [mem_append]
  exact he.imp (hstale e) id

theorem Compacting.drop :
    Compacting before hi top trail trailTop c (done ++ [(before (c + 1), before (c + 2))]) kept where
  met := C.met_succ
  written := C.written
  le := Nat.le_of_succ_le (Nat.le_of_succ_le C.le)
  below i hi := C.below i (by omega)
  above := C.above
  stale := C.stale_succ

end

def moveUp (trail : ℕ → Word) (trailTop currT : ℕ) : ℕ → Word :=
  update (update trail trailTop (trail currT)) (trailTop - 1) (trail (currT - 1))

theorem moveUp_of_lt {i currT : ℕ} (h : trailTop < i) : moveUp trail trailTop currT i = trail i := by
  rw [moveUp, update_of_ne (by omega), update_of_ne (by omega)]

theorem moveUp_of_le {i currT : ℕ} (h : i + 2 ≤ trailTop) : moveUp trail trailTop currT i = trail i := by
  rw [moveUp, update_of_ne (by omega), update_of_ne (by omega)]

theorem Compacting.keep (C : Compacting before hi top trail trailTop (c + 2) done kept) :
    Compacting before hi top (moveUp trail trailTop (c + 2)) (trailTop - 2) c
      (done ++ [(before (c + 1), before (c + 2))]) (kept ++ [(before (c + 1), before (c + 2))]) := by
  obtain ⟨t, rfl⟩ : ∃ t, trailTop = t + 2 := ⟨trailTop - 2, by have := C.le; omega⟩
  obtain ⟨m, hm, hkept⟩ := C.written
  have hct : c ≤ t := by
    have := C.le
    omega
  have hentry : (moveUp trail (t + 2) (c + 2) (t + 1), moveUp trail (t + 2) (c + 2) (t + 2)) =
      (before (c + 1), before (c + 2)) := by
    rw [← C.below (c + 1) (by omega), ← C.below (c + 2) (by omega), moveUp]
    congr 1
    · exact update_self ..
    · rw [update_of_ne (by omega), update_self]
  have hwritten : segment (moveUp trail (t + 2) (c + 2)) t (m + 1) = kept ++ [(before (c + 1), before (c + 2))] := by
    rw [segment_succ, hentry, hkept, segment_congr fun i hi _ => moveUp_of_lt hi]
  refine ⟨C.met_succ, ⟨m + 1, by omega, hwritten.symm⟩, hct, fun i hi => ?_, fun i hi => ?_, fun htop => ?_⟩
  · rw [moveUp_of_le (by omega)]
    exact C.below i (by omega)
  · rw [moveUp_of_lt (by omega)]
    exact C.above i hi
  · -- above `t` stands what is kept, and below it the trail is as it was
    obtain ⟨k, hk, hstale⟩ := C.stale_succ htop
    obtain ⟨j, rfl⟩ : ∃ j, t = c + 2 * j := ⟨k - (m + 1), by omega⟩
    obtain rfl : k = j + (m + 1) := by omega
    refine ⟨j + (m + 1), hk, fun e he => ?_⟩
    rw [segment_add, hwritten, mem_append] at he
    rw [segment_add, segment_succ, ← hkept] at hstale
    rcases he with he | he
    · rw [mem_append] at he ⊢
      refine he.elim (fun he => ?_) .inr
      exact mem_append.1 (hstale e (mem_append_left _ (mem_append_left _ he)))
    · rw [segment_congr fun i _ hi => moveUp_of_le (by omega)] at he
      exact hstale e (mem_append_right _ he)

theorem compactLoop_run {σ : Type} (keep : σ → (ℕ → Word) → ℕ → Option (Bool × σ))
    (J : σ → List Entry → List Entry → Prop) (before : ℕ → Word) {bottom n : ℕ} (hle : bottom + 2 * n ≤ top)
    (hstep : ∀ s trail trailTop c done kept, (before (c + 1), before (c + 2)) ∈ segment before bottom n →
      Compacting before (bottom + 2 * n) top trail trailTop (c + 2) done kept → J s done kept →
      ∃ b s', keep s trail (c + 2) = some (b, s') ∧ J s' (done ++ [(before (c + 1), before (c + 2))])
          (if b then kept ++ [(before (c + 1), before (c + 2))] else kept))
    (s : σ) (h0 : J s [] []) :
    ∃ s' trail' trailTop' m, compactLoop keep bottom s before top (bottom + 2 * n) = some (s', trail', trailTop') ∧
      top = trailTop' + 2 * m ∧ bottom ≤ trailTop' ∧ J s' (segment before bottom n) (segment trail' trailTop' m) ∧
      (∀ i ≤ bottom, trail' i = before i) ∧ ∀ i, top < i → trail' i = before i := by
  suffices hrun : ∀ r trail trailTop done kept s,
      Compacting before (bottom + 2 * n) top trail trailTop (bottom + 2 * r) done kept →
      J s done kept → ∃ s' trail' trailTop' m,
        compactLoop keep bottom s trail trailTop (bottom + 2 * r) = some (s', trail', trailTop') ∧
        top = trailTop' + 2 * m ∧ bottom ≤ trailTop' ∧ J s' (segment before bottom n) (segment trail' trailTop' m) ∧
        (∀ i ≤ bottom, trail' i = before i) ∧ ∀ i, top < i → trail' i = before i from
    hrun n before top [] [] s (compacting_start hle) h0
  intro r
  induction r with
  | zero =>
    intro trail trailTop done kept s C hJ
    obtain ⟨k, hk, hdone⟩ := C.met
    obtain ⟨m, hm, hkept⟩ := C.written
    obtain rfl : n = k := by omega
    refine ⟨s, trail, trailTop, m, ?_, hm, C.le, ?_, C.below, C.above⟩
    · rw [compactLoop, if_neg (by omega)]
    · rw [← hkept]
      exact hdone ▸ hJ
  | succ r ih =>
    intro trail trailTop done kept s C hJ
    have hmem : (before (bottom + 2 * r + 1), before (bottom + 2 * r + 2)) ∈ segment before bottom n := by
      obtain ⟨k, hk, -⟩ := C.met
      obtain rfl : n = r + (k + 1) := by omega
      rw [segment_add, segment_succ]
      exact mem_append_left _ (mem_append_right _ (mem_singleton_self _))
    obtain ⟨b, s', hkeep, hJ'⟩ := hstep s trail trailTop (bottom + 2 * r) done kept hmem C hJ
    have hstart : bottom < bottom + 2 * (r + 1) := by omega
    rw [compactLoop, if_pos hstart, show bottom + 2 * (r + 1) = bottom + 2 * r + 2 from rfl, hkeep]
    cases b with
    | false => exact ih trail trailTop _ _ s' C.drop hJ'
    | true => exact ih _ _ _ _ s' C.keep hJ'

end

end Picat.Trail

/-! # Duplicates in the top segment -/

namespace Picat.Trail

open BitScan UndoLog List

section
variable {exempt : Entry → Prop} {e : Entry} {done kept : List Entry}

theorem exists_addr_snoc {a : Word} : (∃ e' ∈ done ++ [e], e'.addr = a) ↔ (∃ e' ∈ done, e'.addr = a) ∨ e.addr = a := by
  simp only [mem_append, mem_singleton, or_and_right, exists_or, exists_eq_left]

theorem Compacting.alreadyTrailed_iff {before trail : ℕ → Word} {hi trailTop c : ℕ}
    (C : Compacting before hi hi trail trailTop c done kept) (D : Compacts Entry.addr exempt done kept) (a : Word) :
    alreadyTrailed trail a hi (c + 1) = true ↔ ∃ e ∈ done, e.addr = a := by
  obtain ⟨k, hk, hstale⟩ := C.stale rfl
  obtain ⟨m, hm, hkept⟩ := C.written
  have hle := C.le
  rw [hk, Trail.alreadyTrailed_iff]
  refine ⟨fun ⟨e, he, ha⟩ => ⟨e, hstale e he, ha⟩, fun h => ?_⟩
  obtain ⟨e, he, ha⟩ := (D.exists_iff a).2 h
  obtain ⟨j, rfl⟩ : ∃ j, k = j + m := ⟨k - m, by omega⟩
  obtain rfl : trailTop = c + 2 * j := by omega
  refine ⟨e, ?_, ha⟩
  rw [segment_add, mem_append]
  exact .inl (hkept ▸ he)

end

/-- `g'` is `g` with a top segment that keeps the oldest entry of every cell, and others only where they are exempt. -/
structure Thinned (exempt : Entry → Prop) (g g' : State) : Prop where
  rest : g' = { g with trail := g'.trail, trailTop := g'.trailTop }
  above : ∀ i, g.arT g.breg < i → g'.trail i = g.trail i
  compacts : ∃ n m, g.arT g.breg = g.trailTop + 2 * n ∧ g.arT g.breg = g'.trailTop + 2 * m ∧
    Compacts Entry.addr exempt (segment g.trail g.trailTop n) (segment g'.trail g'.trailTop m)

variable {g : State} {n : ℕ}

/-- Variables of the stack below `AR_TOP(sfreg)` are not looked up. -/
def squareExempt (g : State) (e : Entry) : Prop := tag e.1 = trailVar ∧ e.addr < g.sfregTop

theorem square_run (hn : g.arT g.breg = g.trailTop + 2 * n) :
    ∃ g', eliminateDuplicatedTrailInTopSegmentSquare g = some g' ∧ Thinned (squareExempt g) g g' := by
  have hloop := compactLoop_run (squareKeep g) (fun _ done kept => Compacts Entry.addr (squareExempt g) done kept)
    g.trail hn.ge ?_ () Compacts.nil
  · obtain ⟨s', trail', trailTop', m, hrun, hm, -, hJ, -, habove⟩ := hloop
    rw [← hn] at hrun
    exact ⟨{ g with trail := trail', trailTop := trailTop' },
      by rw [eliminateDuplicatedTrailInTopSegmentSquare, hrun, Option.map_some], rfl, habove, n, m, hn, hm, hJ⟩
  · intro s trail trailTop c done kept _ C D
    rw [← hn] at C
    rw [squareKeep, show c + 2 - 1 = c + 1 from rfl, C.below (c + 1) (by omega)]
    split_ifs with hexempt
    · exact ⟨true, (), rfl, D.keep (.inl hexempt)⟩
    · refine ⟨_, (), rfl, ?_⟩
      have hiff := C.alreadyTrailed_iff D (untagged3 (g.trail (c + 1)))
      cases hfound : alreadyTrailed trail (untagged3 (g.trail (c + 1))) (g.arT g.breg) (c + 2 + 1) with
      | true => exact D.drop (hiff.1 hfound)
      | false =>
        refine D.keep (.inr fun e' he' haddr => ?_)
        rw [hiff.2 ⟨e', he', haddr⟩] at hfound
        cases hfound

/-! ## The linear routine -/

/-- Variables of the stack below `AR_TOP(sfreg)` are not looked up, and neither are atomic values of cells outside the heap. -/
def linearExempt (g : State) (e : Entry) : Prop :=
  isHeapReference g e.addr = false ∧ (tag e.1 = trailValAtomic ∨ tag e.1 = trailVar ∧ e.addr < g.sfregTop)

def IsCell (a : Word) : Prop := 8 ∣ a.toNat ∧ a ≠ 0

def InMask (g : State) (a : Word) : Prop :=
  isHeapReference g a = true → maskOffset a g.stackLowAddr / 64 < maskSize g

section
variable {mask : List Word} {addr base : Word} (h : maskOffset addr base / 64 < mask.length)
include h

theorem gcIsMarked_eq : gcIsMarked mask addr base = some (bitAt mask (maskOffset addr base)) := by
  rw [gcIsMarked, bitAt, List.getElem?_eq_getElem h, Option.map_some, Option.getD_some]
  congr 1
  rw [Bool.eq_iff_iff, decide_eq_true_iff]
  exact one_shiftLeft_and_eq_self (Nat.mod_lt _ (by decide))

theorem gcSetMaskBit_eq : ∃ mask', gcSetMaskBit mask addr base = some mask' ∧ mask'.length = mask.length ∧
      ∀ i, bitAt mask' i = (bitAt mask i || decide (i = maskOffset addr base)) := by
  refine ⟨_, by rw [gcSetMaskBit, List.getElem?_eq_getElem h, Option.map_some], length_set, fun i => ?_⟩
  rw [bitAt_set h]
  split_ifs with hi
  · rw [getLsbD_or_one_shiftLeft (Nat.mod_lt _ (by decide)), bitAt, hi, List.getElem?_eq_getElem h, Option.getD_some]
    congr 2
    exact propext ⟨fun hmod => by rw [← Nat.div_add_mod i 64, hi, hmod, Nat.div_add_mod], fun heq => by rw [heq]⟩
  · rw [decide_eq_false fun heq => hi (by rw [heq]), Bool.or_false]

end

theorem maskOffset_inj {base a b : Word} (hbase : 8 ∣ base.toNat) (hba : base ≤ a) (hbb : base ≤ b) (ha : 8 ∣ a.toNat)
    (hb : 8 ∣ b.toNat) (h : maskOffset a base = maskOffset b base) : a = b := by
  rw [maskOffset, maskOffset, BitVec.toNat_sub_of_le hba, BitVec.toNat_sub_of_le hbb] at h
  have hba' : base.toNat ≤ a.toNat := hba
  have hbb' : base.toNat ≤ b.toNat := hbb
  apply BitVec.eq_of_toNat_eq
  omega

/-- The marks stand for the cells of the heap that have been met. -/
structure LinearInv (g : State) (s : Linear) (done kept : List Entry) : Prop where
  compacts : Compacts Entry.addr (linearExempt g) done kept
  length_eq : s.mask.length = maskSize g
  marked_iff : ∀ a, isHeapReference g a = true → 8 ∣ a.toNat →
    (bitAt s.mask (maskOffset a g.stackLowAddr) = true ↔ ∃ e ∈ done, e.addr = a)
  last : s.lastCheckedAddr = 0 ∨ ∃ e ∈ done, e.addr = s.lastCheckedAddr

section
variable {s : Linear} {done kept : List Entry} {e : Entry}

theorem linearInv_start (g : State) : LinearInv g ⟨List.replicate (maskSize g) 0#64, 0⟩ [] [] where
  compacts := .nil
  length_eq := length_replicate
  marked_iff a _ _ := by simp [bitAt_replicate_zero]
  last := .inl rfl

section
variable (J : LinearInv g s done kept)
include J

theorem LinearInv.last_snoc : s.lastCheckedAddr = 0 ∨ ∃ e' ∈ done ++ [e], e'.addr = s.lastCheckedAddr :=
  J.last.imp_right fun h => exists_addr_snoc.2 (.inl h)

theorem LinearInv.drop (h : ∃ e' ∈ done, e'.addr = e.addr) : LinearInv g s (done ++ [e]) kept where
  compacts := J.compacts.drop h
  length_eq := J.length_eq
  marked_iff a hheap hcell := by
    rw [J.marked_iff a hheap hcell, exists_addr_snoc]
    exact ⟨.inl, fun h' => h'.elim id fun heq => heq ▸ h⟩
  last := J.last_snoc

theorem LinearInv.keep (hheap : isHeapReference g e.addr = false)
    (h : linearExempt g e ∨ ∀ e' ∈ done, e'.addr ≠ e.addr) : LinearInv g s (done ++ [e]) (kept ++ [e]) where
  compacts := J.compacts.keep h
  length_eq := J.length_eq
  marked_iff a ha hcell := by
    rw [J.marked_iff a ha hcell, exists_addr_snoc]
    refine ⟨.inl, fun h' => h'.resolve_right fun heq => ?_⟩
    rw [heq, ha] at hheap
    cases hheap
  last := J.last_snoc

end

theorem LinearInv.checked (J : LinearInv g s (done ++ [e]) kept) :
    LinearInv g { s with lastCheckedAddr := e.addr } (done ++ [e]) kept :=
  ⟨J.compacts, J.length_eq, J.marked_iff, .inr ⟨e, mem_append_right _ (mem_singleton_self e), rfl⟩⟩

theorem LinearInv.mark (J : LinearInv g s done kept) (hbase : 8 ∣ g.stackLowAddr.toNat)
    (hheap : isHeapReference g e.addr = true) (hcell : 8 ∣ e.addr.toNat)
    (hnot : bitAt s.mask (maskOffset e.addr g.stackLowAddr) = false) {mask : List Word} (hlen : mask.length = s.mask.length)
    (hmask : ∀ i, bitAt mask i = (bitAt s.mask i || decide (i = maskOffset e.addr g.stackLowAddr))) :
    LinearInv g { s with mask := mask } (done ++ [e]) (kept ++ [e]) where
  compacts := J.compacts.keep (.inr fun e' he' haddr => by
    rw [(J.marked_iff _ hheap hcell).2 ⟨e', he', haddr⟩] at hnot
    cases hnot)
  length_eq := hlen.trans J.length_eq
  marked_iff a ha hacell := by
    have hlow : ∀ {b : Word}, isHeapReference g b = true → g.stackLowAddr ≤ b := fun hb =>
      of_decide_eq_true (Bool.and_eq_true_iff.1 hb).1
    rw [hmask, Bool.or_eq_true, J.marked_iff a ha hacell, exists_addr_snoc, decide_eq_true_iff]
    exact or_congr_right ⟨fun h => (maskOffset_inj hbase (hlow ha) (hlow hheap) hacell hcell h).symm,
      fun h => by rw [h]⟩
  last := J.last_snoc

theorem linearKeep_run {before trail : ℕ → Word} {trailTop c : ℕ} (hbase : 8 ∣ g.stackLowAddr.toNat)
    (hcell : IsCell (Entry.addr (before (c + 1), before (c + 2))))
    (hmask : InMask g (Entry.addr (before (c + 1), before (c + 2))))
    (C : Compacting before (g.arT g.breg) (g.arT g.breg) trail trailTop (c + 2) done kept) (J : LinearInv g s done kept) :
    ∃ b s', linearKeep g s trail (c + 2) = some (b, s') ∧ LinearInv g s' (done ++ [(before (c + 1), before (c + 2))])
        (if b then kept ++ [(before (c + 1), before (c + 2))] else kept) := by
  rw [linearKeep, show c + 2 - 1 = c + 1 from rfl, C.below (c + 1) (by omega)]
  generalize he : (before (c + 1), before (c + 2)) = e at hcell hmask ⊢
  rw [show before (c + 1) = e.1 from congrArg Prod.fst he]
  change IsCell (untagged3 e.1) at hcell
  split_ifs with hheap hexempt hlast
  · have hin : maskOffset (untagged3 e.1) g.stackLowAddr / 64 < s.mask.length := J.length_eq ▸ hmask hheap
    rw [gcIsMarked_eq hin]
    cases hmarked : bitAt s.mask (maskOffset (untagged3 e.1) g.stackLowAddr) with
    | true => exact ⟨false, s, rfl, J.drop ((J.marked_iff _ hheap hcell.1).1 hmarked)⟩
    | false =>
      obtain ⟨mask, hset, hlen, hbits⟩ := gcSetMaskBit_eq hin
      rw [hset]
      exact ⟨true, _, rfl, J.mark hbase hheap hcell.1 hmarked hlen hbits⟩
  · exact ⟨true, s, rfl, J.keep (Bool.eq_false_iff.2 hheap) (.inl ⟨Bool.eq_false_iff.2 hheap, hexempt⟩)⟩
  · refine ⟨false, s, rfl, J.drop (J.last.elim (fun hzero => ?_) fun ⟨e', he', haddr⟩ => ⟨e', he', haddr.trans hlast⟩)⟩
    exact absurd (hlast.symm.trans hzero) hcell.2
  · refine ⟨_, _, rfl, ?_⟩
    have hiff := C.alreadyTrailed_iff J.compacts (untagged3 e.1)
    cases hfound : alreadyTrailed trail (untagged3 e.1) (g.arT g.breg) (c + 2 + 1) with
    | true => exact (J.drop (hiff.1 hfound)).checked
    | false =>
      refine (J.keep (Bool.eq_false_iff.2 hheap) (.inr fun e' he' haddr => ?_)).checked
      rw [hiff.2 ⟨e', he', haddr⟩] at hfound
      cases hfound

end

theorem linear_run {malloc : ℕ → Bool} (hmalloc : malloc (maskSize g) = true) (hn : g.arT g.breg = g.trailTop + 2 * n)
    (hbase : 8 ∣ g.stackLowAddr.toNat) (hcell : ∀ e ∈ segment g.trail g.trailTop n, IsCell e.addr ∧ InMask g e.addr) :
    ∃ g', eliminateDuplicatedTrailInTopSegmentLinear g malloc = some (true, g') ∧ Thinned (linearExempt g) g g' := by
  have hloop := compactLoop_run (linearKeep g) (LinearInv g) g.trail hn.ge ?_ _ (linearInv_start g)
  · obtain ⟨s', trail', trailTop', m, hrun, hm, -, J, -, habove⟩ := hloop
    rw [← hn] at hrun
    exact ⟨{ g with trail := trail', trailTop := trailTop' },
      by rw [eliminateDuplicatedTrailInTopSegmentLinear, if_pos hmalloc, hrun, Option.map_some], rfl, habove, n, m, hn, hm,
      J.compacts⟩
  · intro s trail trailTop c done kept hmem C J
    rw [← hn] at C
    exact linearKeep_run hbase (hcell _ hmem).1 (hcell _ hmem).2 C J

end Picat.Trail
