import Picat.Assert.GlobalMap
import Picat.Lib.DoublyLinked

/-!
# Dynamic predicates

* `bASSERTA`, `bASSERTZ`, `bREMOVECLAUSE`, `bGETCLAUSES` : the operations.
-/

namespace Picat

open Chains DoublyLinked Variants

/-! ## The data -/

/-- `struct(CellRef,Head,Body,Birth,Death)`, where the death of a clause that is alive, `BP_MAXINT_1W`, is no time. -/
structure InterpretedClause where
  clRef : ℕ
  head : Tm Label ℕ
  body : Tm Label ℕ
  birthTimeStamp : ℕ
  deathTimeStamp : Option ℕ

/-- `InterpretedPred`, whose buckets stand at the indices up to `bucketSize`, the last of them for the chain of all
clauses, with the memory of its cells and clause records. -/
structure InterpretedPred where
  refCount : ℕ
  retrCount : ℕ
  clCount : ℕ
  timeStamp : ℕ
  bucketSize : ℕ
  hashtable : ℕ → Ends ℕ
  car : ℕ → ℕ
  links : Links ℕ
  freeCells : List ℕ
  cellTop : ℕ
  clause : ℕ → InterpretedClause
  freeClauses : List ℕ
  clauseTop : ℕ

/-- `hashval_in_assert`: no argument or a variable as the first one has the hash value 0. -/
def hashvalInAssert (listPsc : Sym) (clause : InterpretedClause) : ℕ :=
  match clause.head with
  | .app (.str _) (arg1 :: _) => bpHashCode1 listPsc arg1
  | _ => 0

namespace InterpretedPred

/-- `new_interpreted_pred_record`, in an empty memory. -/
def new (size : ℕ) : InterpretedPred where
  refCount := 0
  retrCount := 0
  clCount := 0
  timeStamp := 0
  bucketSize := size
  hashtable := fun _ => .nil
  car := fun _ => 0
  links := ⟨fun _ => none, fun _ => none⟩
  freeCells := []
  cellTop := 0
  clause := fun _ => ⟨0, .var 0, .var 0, 0, none⟩
  freeClauses := []
  clauseTop := 0

/-! ## Memory -/

/-- `ALLOCATE_RECORD_IN_ASSERT`, for a cell. -/
def allocateCell (s : InterpretedPred) : ℕ × InterpretedPred :=
  match s.freeCells with
  | a :: free => (a, { s with freeCells := free })
  | [] => (s.cellTop, { s with cellTop := s.cellTop + 1 })

/-- `RELEASE_FREE_RECORD`, for a cell: its first word becomes the link to the next free one. -/
def releaseCell (s : InterpretedPred) (a : ℕ) : InterpretedPred :=
  { s with car := Function.update s.car a (s.freeCells.headD 0), freeCells := a :: s.freeCells }

/-- `ALLOCATE_CLAUSE_RECORD` -/
def allocateClause (s : InterpretedPred) : ℕ × InterpretedPred :=
  match s.freeClauses with
  | c :: free => (c, { s with freeClauses := free })
  | [] => (s.clauseTop, { s with clauseTop := s.clauseTop + 1 })

/-- `RELEASE_FREE_CLAUSE_RECORD` -/
def releaseClause (s : InterpretedPred) (c : ℕ) : InterpretedPred :=
  { s with
    clause := Function.update s.clause c { s.clause c with clRef := s.freeClauses.headD 0 }
    freeClauses := c :: s.freeClauses }

/-! ## One chain -/

/-- A new cell with the clause `c`, at the front or at the back of the chain `i`. -/
def assertClauseRecord (front : Bool) (s : InterpretedPred) (i c : ℕ) : Option (ℕ × InterpretedPred) :=
  let (a, s) := s.allocateCell
  (push front s.links (s.hashtable i) a).map fun r =>
    (a, { s with car := Function.update s.car a c, links := r.1, hashtable := Function.update s.hashtable i r.2 })

def assertaClauseRecord := assertClauseRecord true

def assertzClauseRecord := assertClauseRecord false

def disconnectCellOfRemovedClause (s : InterpretedPred) (i a : ℕ) : Option InterpretedPred :=
  (unlink s.links (s.hashtable i) a).map fun r =>
    { s with links := r.1, hashtable := Function.update s.hashtable i r.2 }

/-- The condition under which the space of a removed clause is freed. -/
def isOnlyRetract (s : InterpretedPred) : Bool := s.refCount = 0 ∧ s.retrCount ≤ 1

/-- `free_cell_of_removed_in_bucket`, from the link `list` on. -/
def freeCellOfRemovedInBucket (c i : ℕ) : ℕ → Option ℕ → InterpretedPred → Option InterpretedPred
  | _, none, s => some s
  | 0, some _, _ => none
  | fuel + 1, some a, s =>
    if s.car a = c then
      (s.disconnectCellOfRemovedClause i a).map fun s => if s.isOnlyRetract then s.releaseCell a else s
    else freeCellOfRemovedInBucket c i fuel (s.links.next a) s

/-! ## All chains -/

def bucketsOf (s : InterpretedPred) (hashval : ℕ) : List ℕ :=
  if hashval = 0 then List.range s.bucketSize
  else if s.bucketSize ≠ 0 then [hashval % s.bucketSize]
  else []

def assertIntoBuckets (front : Bool) (c : ℕ) (is : List ℕ) (s : InterpretedPred) : Option InterpretedPred :=
  is.foldlM (fun s i => (s.assertClauseRecord front i c).map Prod.snd) s

def createClauseRecord (s : InterpretedPred) (head body : Tm Label ℕ) : ℕ × InterpretedPred :=
  let (c, s) := s.allocateClause
  let headCp := numberVarCopyToParea ⟨fun _ => none, 1⟩ head
  let bodyCp := numberVarCopyToParea headCp.2 body
  (c, { s with clause := Function.update s.clause c ⟨(s.clause c).clRef, headCp.1, bodyCp.1, s.timeStamp, none⟩ })

/-- A new clause at one end of its buckets and then of the chain of all clauses. -/
def assertInterpretedPred (listPsc : Sym) (front : Bool) (s : InterpretedPred) (head body : Tm Label ℕ) :
    Option InterpretedPred := do
  let (c, s) := { s with clCount := s.clCount + 1 }.createClauseRecord head body
  let s ← s.assertIntoBuckets front c (s.bucketsOf (hashvalInAssert listPsc (s.clause c)))
  let (a, s) ← s.assertClauseRecord front s.bucketSize c
  some { s with clause := Function.update s.clause c { s.clause c with clRef := a } }

def assertaInterpretedPred (listPsc : Sym) := assertInterpretedPred listPsc true

def assertzInterpretedPred (listPsc : Sym) := assertInterpretedPred listPsc false

def releaseCells : ℕ → Option ℕ → InterpretedPred → Option InterpretedPred
  | _, none, s => some s
  | 0, some _, _ => none
  | fuel + 1, some a, s => releaseCells fuel (s.links.next a) (s.releaseCell a)

def reassert (listPsc : Sym) : ℕ → Option ℕ → InterpretedPred → Option InterpretedPred
  | _, none, s => some s
  | 0, some _, _ => none
  | fuel + 1, some a, s => do
      let list := s.links.next a
      let c := s.car a
      let s ← s.assertIntoBuckets false c (s.bucketsOf (hashvalInAssert listPsc (s.clause c)))
      reassert listPsc fuel list s

/-- `rehash_interpreted_pred`, which stops when there is no memory for the new buckets. -/
def rehashInterpretedPred (listPsc : Sym) (s : InterpretedPred) (malloc : Bool) : Option InterpretedPred :=
  if malloc then do
    let newSize := bpHsize (2 * s.bucketSize)
    let all := s.hashtable s.bucketSize
    let fuel := s.cellTop
    let s ← (List.range s.bucketSize).foldlM (fun r i => r.releaseCells fuel (s.hashtable i).list) s
    let s := { s with bucketSize := newSize, hashtable := Function.update (fun _ => .nil) newSize all }
    s.reassert listPsc fuel all.list
  else some s

/-- Frees the cells of a removed clause in one bucket after the other. -/
def freeCellsOfRemoved (c : ℕ) (is : List ℕ) (s : InterpretedPred) : Option InterpretedPred :=
  is.foldlM (fun s i => freeCellOfRemovedInBucket c i s.cellTop (s.hashtable i).list s) s

/-- `locate_and_free_clause_record`, which divides by the number of buckets. -/
def locateAndFreeClauseRecord (listPsc : Sym) (s : InterpretedPred) (c : ℕ) : Option InterpretedPred := do
  let a := (s.clause c).clRef
  let s ← s.disconnectCellOfRemovedClause s.bucketSize a
  let hashval := hashvalInAssert listPsc (s.clause c)
  let s ← if hashval ≠ 0 ∧ s.bucketSize = 0 then none else freeCellsOfRemoved c (s.bucketsOf hashval) s
  some (if s.isOnlyRetract then (s.releaseClause c).releaseCell a else s)

/-! ## The operations -/

/-- The common part of `b_ASSERTA_cc` and `b_ASSERTZ_cc`. -/
def bASSERT (listPsc : Sym) (front : Bool) (s : InterpretedPred) (head body : Tm Label ℕ) (malloc : Bool) :
    Option InterpretedPred := do
  let s ← if s.clCount > s.bucketSize then s.rehashInterpretedPred listPsc malloc else some s
  let s := if s.refCount ≠ 0 ∨ s.retrCount ≠ 0 then { s with timeStamp := s.timeStamp + 1 } else s
  s.assertInterpretedPred listPsc front head body

def bASSERTA (listPsc : Sym) := bASSERT listPsc true

def bASSERTZ (listPsc : Sym) := bASSERT listPsc false

/-- `b_REMOVE_CLAUSE_c` -/
def bREMOVECLAUSE (listPsc : Sym) (s : InterpretedPred) (c : ℕ) : Option InterpretedPred :=
  if (s.clause c).deathTimeStamp ≠ none then some s
  else
    let s := { s with clCount := s.clCount - 1 }
    if s.refCount ≠ 0 ∨ s.retrCount > 1 then
      some { s with
        timeStamp := s.timeStamp + 1
        clause := Function.update s.clause c { s.clause c with deathTimeStamp := some (s.timeStamp + 1) } }
    else s.locateAndFreeClauseRecord listPsc c

def bpZero : ℕ := intTag

def bpHashKey1 (listPsc : Sym) : Tm Label ℕ → ℕ
  | .var _ => bpZero
  | .app (.atm w) _ => w
  | .app .lst _ => listPsc ||| intTag
  | .app (.str sym) _ => sym ||| intTag

/-- What `b_GET_CLAUSES_cfff` gives. -/
structure Clauses where
  list : Option ℕ
  key : ℕ
  callTime : ℕ

def chainOf (listPsc : Sym) (s : InterpretedPred) : Tm Label ℕ → ℕ
  | .app (.str _) (arg1 :: _) =>
    let i := bpHashCode1 listPsc arg1
    if s.bucketSize ≠ 0 ∧ i ≠ 0 then i % s.bucketSize else s.bucketSize
  | _ => s.bucketSize

def keyOf (listPsc : Sym) (s : InterpretedPred) : Tm Label ℕ → ℕ
  | .app (.str _) (arg1 :: _) => if s.bucketSize ≠ 0 then bpHashKey1 listPsc arg1 else bpZero
  | _ => bpZero

/-- `b_GET_CLAUSES_cfff` -/
def bGETCLAUSES (listPsc : Sym) (s : InterpretedPred) (head : Tm Label ℕ) : Clauses :=
  ⟨(s.hashtable (s.chainOf listPsc head)).list, s.keyOf listPsc head, s.timeStamp⟩

end InterpretedPred

end Picat

/-! # The chains of a dynamic predicate -/

namespace Picat

open Chains DoublyLinked Variants Function List

variable {a : ℕ} {front : Bool} {is : List ℕ}

namespace InterpretedPred

structure SamePred (s s' : InterpretedPred) : Prop where
  refCount : s'.refCount = s.refCount
  retrCount : s'.retrCount = s.retrCount
  clCount : s'.clCount = s.clCount
  timeStamp : s'.timeStamp = s.timeStamp
  bucketSize : s'.bucketSize = s.bucketSize
  clause : s'.clause = s.clause
  freeClauses : s'.freeClauses = s.freeClauses
  clauseTop : s'.clauseTop = s.clauseTop

theorem SamePred.refl (s : InterpretedPred) : SamePred s s := ⟨rfl, rfl, rfl, rfl, rfl, rfl, rfl, rfl⟩

theorem SamePred.trans {s s' s'' : InterpretedPred} (h : SamePred s s') (h' : SamePred s' s'') : SamePred s s'' :=
  ⟨h'.refCount.trans h.refCount, h'.retrCount.trans h.retrCount, h'.clCount.trans h.clCount,
    h'.timeStamp.trans h.timeStamp, h'.bucketSize.trans h.bucketSize, h'.clause.trans h.clause,
    h'.freeClauses.trans h.freeClauses, h'.clauseTop.trans h.clauseTop⟩

theorem SamePred.isOnlyRetract {s s' : InterpretedPred} (h : SamePred s s') (honly : s.isOnlyRetract = true) :
    s'.isOnlyRetract = true := by
  unfold InterpretedPred.isOnlyRetract at honly ⊢
  rw [h.refCount, h.retrCount]
  exact honly

/-- The cells of every chain, which share none and are not free. -/
structure Cells (s : InterpretedPred) (cells : ℕ → List ℕ) : Prop where
  shares : Shares s.links s.hashtable cells
  used : ∀ i, ∀ a ∈ cells i, a < s.cellTop ∧ a ∉ s.freeCells
  free_lt : ∀ a ∈ s.freeCells, a < s.cellTop
  free_nodup : s.freeCells.Nodup

variable {s s' s'' : InterpretedPred} {cells cells' cells'' : ℕ → List ℕ} {c : ℕ}

theorem Cells.length_le (h : Cells s cells) (i : ℕ) : (cells i).length ≤ s.cellTop := by
  have hsub : (cells i).Subperm (List.range s.cellTop) :=
    (h.shares.holds i).nodup.subperm fun a ha => mem_range.2 (h.used i a ha).1
  simpa using hsub.length_le

/-! ## New cells -/

theorem Cells.allocate (h : Cells s cells) :
    SamePred s s.allocateCell.2 ∧ Cells s.allocateCell.2 cells ∧ s.allocateCell.2.car = s.car ∧
      s.allocateCell.1 < s.allocateCell.2.cellTop ∧ s.allocateCell.1 ∉ s.allocateCell.2.freeCells ∧
      ∀ j, s.allocateCell.1 ∉ cells j := by
  unfold allocateCell
  cases hfree : s.freeCells with
  | nil =>
    refine ⟨⟨rfl, rfl, rfl, rfl, rfl, rfl, rfl, rfl⟩, ⟨h.shares, fun i a ha => ?_, ?_, ?_⟩, rfl, ?_, ?_, fun j hj => ?_⟩
    · exact ⟨Nat.lt_succ_of_lt (h.used i a ha).1, not_mem_nil⟩
    · exact fun a ha => absurd ha not_mem_nil
    · exact nodup_nil
    · exact Nat.lt_succ_self _
    · exact not_mem_nil
    · exact lt_irrefl _ (h.used j _ hj).1
  | cons a free =>
    have hnodup := h.free_nodup
    rw [hfree, nodup_cons] at hnodup
    refine ⟨⟨rfl, rfl, rfl, rfl, rfl, rfl, rfl, rfl⟩, ⟨h.shares, fun i b hb => ?_, fun b hb => ?_, hnodup.2⟩, rfl, ?_,
      hnodup.1, fun j hj => ?_⟩
    · have hused := h.used i b hb
      rw [hfree] at hused
      exact ⟨hused.1, fun hin => hused.2 (mem_cons_of_mem a hin)⟩
    · exact h.free_lt b (hfree ▸ mem_cons_of_mem a hb)
    · exact h.free_lt a (hfree ▸ mem_cons_self)
    · exact (h.used j a hj).2 (hfree ▸ mem_cons_self)

/-- The clause `c` in new cells of the chains `is`. -/
structure Inserted (front : Bool) (c : ℕ) (is : List ℕ) (s : InterpretedPred) (cells : ℕ → List ℕ) (s' : InterpretedPred)
    (cells' : ℕ → List ℕ) : Prop where
  after : Cells s' cells'
  hit : ∀ i ∈ is, ∃ a, (∀ j, a ∉ cells j) ∧ cells' i = insertAt front a (cells i) ∧ s'.car a = c
  miss : ∀ i, i ∉ is → cells' i = cells i
  car_eq : ∀ i, ∀ a ∈ cells i, s'.car a = s.car a

theorem Inserted.map_car (h : Inserted front c is s cells s' cells') (i : ℕ) : (cells' i).map s'.car =
      if i ∈ is then insertAt front c ((cells i).map s.car) else (cells i).map s.car := by
  have hold : (cells i).map s'.car = (cells i).map s.car := map_congr_left (h.car_eq i)
  split_ifs with hi
  · obtain ⟨a, -, hcells, hcar⟩ := h.hit i hi
    rw [hcells, map_insertAt, hcar, hold]
  · rw [h.miss i hi, hold]

theorem Inserted.mem (h : Inserted front c is s cells s' cells') {i : ℕ} (ha : a ∈ cells i) : a ∈ cells' i := by
  by_cases hi : i ∈ is
  · obtain ⟨b, -, hcells, -⟩ := h.hit i hi
    rw [hcells, mem_insertAt]
    exact .inr ha
  · rw [h.miss i hi]
    exact ha

theorem Inserted.nil (h : Cells s cells) (front : Bool) (c : ℕ) : Inserted front c [] s cells s cells :=
  ⟨h, fun _ h => absurd h not_mem_nil, fun _ _ => rfl, fun _ _ _ => rfl⟩

theorem Inserted.append {js : List ℕ} (h : Inserted front c is s cells s' cells')
    (h' : Inserted front c js s' cells' s'' cells'') (hdisj : ∀ i ∈ is, i ∉ js) :
    Inserted front c (is ++ js) s cells s'' cells'' := by
  refine ⟨h'.after, fun i hi => ?_, fun i hi => ?_, fun i a ha => ?_⟩
  · rcases mem_append.1 hi with hi | hi
    · obtain ⟨a, hfresh, hcells, hcar⟩ := h.hit i hi
      refine ⟨a, hfresh, (h'.miss i (hdisj i hi)).trans hcells, ?_⟩
      rw [h'.car_eq i a (by rw [hcells, mem_insertAt]; exact .inl rfl), hcar]
    · obtain ⟨a, hfresh, hcells, hcar⟩ := h'.hit i hi
      have hmiss := h.miss i fun hin => hdisj i hin hi
      exact ⟨a, fun j hj => hfresh j (h.mem hj), by rw [hcells, hmiss], hcar⟩
  · rw [mem_append, not_or] at hi
    rw [h'.miss i hi.2, h.miss i hi.1]
  · rw [h'.car_eq i a (h.mem ha), h.car_eq i a ha]

theorem Cells.insert (h : Cells s cells) (front : Bool) (i c : ℕ) :
    ∃ a s' cells', s.assertClauseRecord front i c = some (a, s') ∧ SamePred s s' ∧
      Inserted front c [i] s cells s' cells' ∧ cells' i = insertAt front a (cells i) ∧ s'.car a = c := by
  obtain ⟨hsame, hcells, hcar, hlt, hfree, hfresh⟩ := h.allocate
  set a := s.allocateCell.1 with ha
  set r := s.allocateCell.2 with hr
  obtain ⟨p, hp, hholds, hframe⟩ := (hcells.shares.holds i).push front (hfresh i)
  have hshares := hcells.shares.update i hholds (fun b _ hb => hframe b hb) fun b hb => by
    rw [mem_insertAt] at hb
    exact hb.elim (fun heq => .inr fun j => heq ▸ hfresh j) .inl
  have hself : update cells i (insertAt front a (cells i)) i = insertAt front a (cells i) :=
    update_self ..
  have hassert : s.assertClauseRecord front i c = some (a,
      { r with car := update r.car a c, links := p.1, hashtable := update r.hashtable i p.2 }) := by
    unfold assertClauseRecord
    simp only [← ha, ← hr, hp, Option.map_some]
  refine ⟨a, _, _, hassert, ⟨hsame.1, hsame.2, hsame.3, hsame.4, hsame.5, hsame.6, hsame.7, hsame.8⟩,
    ⟨⟨hshares, fun j b hb => ?_, hcells.free_lt, hcells.free_nodup⟩, fun j hj => ?_, fun j hj => ?_, fun j b hb => ?_⟩,
    hself, update_self ..⟩
  · by_cases hj : j = i
    · rw [hj, hself, mem_insertAt] at hb
      exact hb.elim (fun heq => by rw [heq]; exact ⟨hlt, hfree⟩) (hcells.used i b)
    · rw [update_of_ne hj] at hb
      exact hcells.used j b hb
  · obtain rfl := mem_singleton.1 hj
    exact ⟨a, hfresh, hself, update_self ..⟩
  · exact update_of_ne (fun heq => hj (mem_singleton.2 heq)) ..
  · have hba : b ≠ a := fun heq => hfresh j (heq ▸ hb)
    exact (update_of_ne hba ..).trans (congrFun hcar b)

theorem Cells.assertIntoBuckets (h : Cells s cells) (front : Bool) (c : ℕ) (his : is.Nodup) :
    ∃ s' cells', s.assertIntoBuckets front c is = some s' ∧ SamePred s s' ∧ Inserted front c is s cells s' cells' := by
  induction is generalizing s cells with
  | nil => exact ⟨s, cells, rfl, .refl s, .nil h front c⟩
  | cons i is ih =>
    rw [nodup_cons] at his
    obtain ⟨a, r, cells', hassert, hsame, hins, -⟩ := h.insert front i c
    obtain ⟨s', cells'', hrest, hsame', hins'⟩ := ih hins.after his.2
    refine ⟨s', cells'', ?_, hsame.trans hsame', hins.append hins' fun j hj => mem_singleton.1 hj ▸ his.1⟩
    unfold InterpretedPred.assertIntoBuckets at hrest ⊢
    rw [foldlM_cons, hassert]
    exact hrest

theorem nodup_bucketsOf (s : InterpretedPred) (hashval : ℕ) : (s.bucketsOf hashval).Nodup := by
  unfold bucketsOf
  split_ifs
  · exact nodup_range
  · exact nodup_singleton _
  · exact nodup_nil

theorem mem_bucketsOf {hashval i : ℕ} :
    i ∈ s.bucketsOf hashval ↔ i < s.bucketSize ∧ (hashval = 0 ∨ hashval % s.bucketSize = i) := by
  unfold bucketsOf
  split_ifs with hzero hsize
  · rw [mem_range]
    exact ⟨fun hi => ⟨hi, .inl hzero⟩, fun hi => hi.1⟩
  · rw [mem_singleton]
    refine ⟨fun hi => ⟨?_, .inr hi.symm⟩, fun hi => (hi.2.resolve_left hzero).symm⟩
    rw [hi]
    exact Nat.mod_lt _ (Nat.pos_of_ne_zero hsize)
  · rw [not_not] at hsize
    refine ⟨fun hi => absurd hi not_mem_nil, fun hi => ?_⟩
    rw [hsize] at hi
    exact absurd hi.1 (Nat.not_lt_zero i)

/-! ## Cells cut out -/

theorem Cells.release (h : Cells s cells) (hlt : a < s.cellTop) (hfree : a ∉ s.freeCells)
    (ha : ∀ i, a ∉ cells i) : Cells (s.releaseCell a) cells := by
  refine ⟨h.shares, fun i b hb => ⟨(h.used i b hb).1, fun hin => ?_⟩, fun b hb => ?_, nodup_cons.2 ⟨hfree, h.free_nodup⟩⟩
  · exact (mem_cons.1 hin).elim (fun heq => ha i (heq ▸ hb)) (h.used i b hb).2
  · exact (mem_cons.1 hb).elim (fun heq => heq ▸ hlt) (h.free_lt b)

theorem Cells.disconnect (h : Cells s cells) {i : ℕ} {l r : List ℕ} (hi : cells i = l ++ a :: r) :
    ∃ s', s.disconnectCellOfRemovedClause i a = some s' ∧ SamePred s s' ∧ Cells s' (update cells i (l ++ r)) ∧
      s'.car = s.car ∧ s'.freeCells = s.freeCells ∧ s'.cellTop = s.cellTop := by
  have hcells := h.shares.holds i
  rw [hi] at hcells
  obtain ⟨p, hp, hholds, hframe⟩ := hcells.unlink
  have hsub : ∀ b ∈ l ++ r, b ∈ cells i := fun b hb => by
    rw [hi, mem_append, mem_cons]
    exact (mem_append.1 hb).imp_right .inr
  have hshares := h.shares.update i hholds (fun b hb _ => hframe b (hi ▸ hb)) fun b hb => .inl (hsub b hb)
  refine ⟨{ s with links := p.1, hashtable := update s.hashtable i p.2 },
    by rw [disconnectCellOfRemovedClause, hp, Option.map_some], ⟨rfl, rfl, rfl, rfl, rfl, rfl, rfl, rfl⟩,
    ⟨hshares, fun j b hb => ?_, h.free_lt, h.free_nodup⟩, rfl, rfl, rfl⟩
  by_cases hj : j = i
  · rw [hj, update_self] at hb
    exact h.used i b (hsub b hb)
  · rw [update_of_ne hj] at hb
    exact h.used j b hb

/-- The cells of the clause `c` cut out of the chains `is` and released. -/
structure Removed (c : ℕ) (is : List ℕ) (s : InterpretedPred) (cells : ℕ → List ℕ) (s' : InterpretedPred)
    (cells' : ℕ → List ℕ) : Prop where
  after : Cells s' cells'
  cellTop : s'.cellTop = s.cellTop
  free : ∀ a ∈ s'.freeCells, a ∈ s.freeCells ∨ ∃ i, a ∈ cells i
  cells_eq : ∀ i, cells' i = if i ∈ is then (cells i).filter fun a => s.car a ≠ c else cells i
  car_eq : ∀ i, ∀ a ∈ cells' i, s'.car a = s.car a

theorem Removed.nil (h : Cells s cells) (c : ℕ) : Removed c [] s cells s cells :=
  ⟨h, rfl, fun _ ha => .inl ha, fun i => by simp, fun _ _ _ => rfl⟩

theorem Removed.subset (h : Removed c is s cells s' cells') (i : ℕ) : ∀ a ∈ cells' i, a ∈ cells i := by
  intro a ha
  rw [h.cells_eq] at ha
  split_ifs at ha with hi
  · exact mem_of_mem_filter ha
  · exact ha

theorem Removed.append {js : List ℕ} (h : Removed c is s cells s' cells') (h' : Removed c js s' cells' s'' cells'')
    (hdisj : ∀ i ∈ is, i ∉ js) : Removed c (is ++ js) s cells s'' cells'' := by
  refine ⟨h'.after, h'.cellTop.trans h.cellTop, fun a ha => ?_, fun i => ?_, fun i a ha => ?_⟩
  · rcases h'.free a ha with ha | ⟨i, hi⟩
    · exact h.free a ha
    · exact .inr ⟨i, h.subset i a hi⟩
  · have hold := h.cells_eq i
    have hnew := h'.cells_eq i
    by_cases hi : i ∈ is
    · rw [if_neg (hdisj i hi)] at hnew
      rw [hnew, hold, if_pos hi, if_pos (mem_append_left _ hi)]
    · rw [if_neg hi] at hold
      rw [hnew]
      by_cases hj : i ∈ js
      · rw [if_pos hj, if_pos (mem_append_right _ hj)]
        rw [hold]
        exact filter_congr fun a ha => by rw [h.car_eq i a (hold.symm ▸ ha)]
      · rw [if_neg hj, if_neg (by simp [hi, hj]), hold]
  · rw [h'.car_eq i a ha, h.car_eq i a (h'.subset i a ha)]

theorem freeCell_eq {i fuel : ℕ} {list : Option ℕ} {as : List ℕ} (h : Chain id s.links.next list as)
    (hfuel : as.length ≤ fuel) :
    freeCellOfRemovedInBucket c i fuel list s = match as.find? fun a => s.car a = c with
      | none => some s
      | some a => (s.disconnectCellOfRemovedClause i a).map fun s => if s.isOnlyRetract then s.releaseCell a else s := by
  induction as generalizing fuel list with
  | nil =>
    rw [chain_nil.1 h]
    cases fuel <;> rfl
  | cons a as ih =>
    obtain ⟨rfl, hchain⟩ := h
    cases fuel with
    | zero => simp at hfuel
    | succ fuel =>
      rw [freeCellOfRemovedInBucket, List.find?_cons]
      by_cases hcar : s.car a = c
      · simp [hcar]
      · simp only [hcar, if_false, decide_false]
        exact ih hchain (Nat.le_of_succ_le_succ hfuel)

theorem filter_ne_eq {f : ℕ → ℕ} {l r : List ℕ} (h : ((l ++ a :: r).map f).Nodup) :
    (l ++ a :: r).filter (fun b => f b ≠ f a) = l ++ r := by
  rw [List.map_append, map_cons, nodup_append, nodup_cons] at h
  have hl : ∀ b ∈ l, decide (f b ≠ f a) = true := fun b hb =>
    decide_eq_true (h.2.2 _ (mem_map_of_mem hb) _ mem_cons_self)
  have hr : ∀ b ∈ r, decide (f b ≠ f a) = true := fun b hb =>
    decide_eq_true fun heq => h.2.1.1 (heq ▸ mem_map_of_mem hb)
  rw [filter_append, filter_cons_of_neg (by simp), filter_eq_self.2 hl, filter_eq_self.2 hr]

theorem Cells.freeCell (h : Cells s cells) (honly : s.isOnlyRetract = true) {i : ℕ} (hnodup : ((cells i).map s.car).Nodup) :
    ∃ s' cells', freeCellOfRemovedInBucket c i s.cellTop (s.hashtable i).list s = some s' ∧ SamePred s s' ∧
      Removed c [i] s cells s' cells' := by
  rw [freeCell_eq (h.shares.holds i).chain (h.length_le i)]
  cases hfind : (cells i).find? fun a => s.car a = c with
  | none =>
    refine ⟨s, cells, rfl, .refl s, h, rfl, fun _ ha => .inl ha, fun j => ?_, fun _ _ _ => rfl⟩
    split_ifs with hj
    · rw [mem_singleton.1 hj]
      exact (filter_eq_self.2 fun a ha => by simpa using List.find?_eq_none.1 hfind a ha).symm
    · rfl
  | some a =>
    have hcar : s.car a = c := by simpa using List.find?_some hfind
    have hmem := mem_of_find?_eq_some hfind
    obtain ⟨l, r, hi⟩ := append_of_mem hmem
    obtain ⟨t, ht, hsame, hcells, htcar, htfree, httop⟩ := h.disconnect hi
    have hcut : (cells i).filter (fun b => s.car b ≠ c) = l ++ r := by
      rw [hi] at hnodup ⊢
      rw [← hcar]
      exact filter_ne_eq hnodup
    have hlt := h.used i a hmem
    have hout : ∀ j, a ∉ update cells i (l ++ r) j := fun j hj => by
      by_cases hji : j = i
      · have hnd := (h.shares.holds i).nodup
        rw [hi, nodup_append, nodup_cons] at hnd
        rw [hji, update_self, mem_append] at hj
        exact hj.elim (fun hl => hnd.2.2 a hl a mem_cons_self rfl) hnd.2.1.1
      · rw [update_of_ne hji] at hj
        exact h.shares.disjoint j i hji a hj hmem
    have hrel := hcells.release (httop ▸ hlt.1) (htfree ▸ hlt.2) hout
    have honly' := hsame.isOnlyRetract honly
    refine ⟨t.releaseCell a, _, by simp only [ht, Option.map_some, if_pos honly'],
      ⟨hsame.1, hsame.2, hsame.3, hsame.4, hsame.5, hsame.6, hsame.7, hsame.8⟩, hrel, httop, fun b hb => ?_,
      fun j => ?_, fun j b hb => ?_⟩
    · rcases mem_cons.1 hb with rfl | hb
      · exact .inr ⟨i, hmem⟩
      · exact .inl (htfree ▸ hb)
    · by_cases hj : j = i
      · rw [hj, update_self, if_pos (mem_singleton_self i), hcut]
      · rw [update_of_ne hj, if_neg fun hin => hj (mem_singleton.1 hin)]
    · have hba : b ≠ a := fun heq => hout j (heq ▸ hb)
      exact (update_of_ne hba ..).trans (congrFun htcar b)

theorem Cells.freeCells (h : Cells s cells) (honly : s.isOnlyRetract = true) {is : List ℕ} (his : is.Nodup)
    (hnodup : ∀ i ∈ is, ((cells i).map s.car).Nodup) :
    ∃ s' cells', freeCellsOfRemoved c is s = some s' ∧ SamePred s s' ∧ Removed c is s cells s' cells' := by
  induction is generalizing s cells with
  | nil => exact ⟨s, cells, rfl, .refl s, .nil h c⟩
  | cons i is ih =>
    rw [nodup_cons] at his
    rw [forall_mem_cons] at hnodup
    obtain ⟨t, tcells, hfirst, hsame, hrem⟩ := @Cells.freeCell s cells c h honly i hnodup.1
    have honly' := hsame.isOnlyRetract honly
    obtain ⟨s', cells', hrest, hsame', hrem'⟩ := ih hrem.after honly' his.2 fun j hj => by
      have hji : j ∉ [i] := fun hin => his.1 (mem_singleton.1 hin ▸ hj)
      have hcells := hrem.cells_eq j
      rw [if_neg hji] at hcells
      rw [map_congr_left (hrem.car_eq j), hcells]
      exact hnodup.2 j hj
    refine ⟨s', cells', ?_, hsame.trans hsame', hrem.append hrem' fun j hj => mem_singleton.1 hj ▸ his.1⟩
    unfold freeCellsOfRemoved at hrest ⊢
    rw [foldlM_cons, hfirst]
    exact hrest

end InterpretedPred

end Picat
