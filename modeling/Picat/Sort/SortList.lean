import Picat.Sort.Qsort

/-!
# `b_sort_int_list` and `c_sort_term_list`

A list is copied to an array above the heap and looked through for its order on the way; it is sorted only where it has
none.

* `sort_lists` : the results.
-/

namespace Picat
open Qsort List

inductive ListEnd
  | nil
  | ref
  | other
deriving DecidableEq, Repr

structure ListArg (β : Type) where
  elems : List β
  tail : ListEnd

/-- `et_INSTANTIATION_ERROR`, or `c_type_error(et_LIST, lst)`. -/
inductive ListError
  | instantiation
  | type
deriving DecidableEq, Repr

inductive ListOrder
  | asorted
  | dsorted
  | notSorted
deriving DecidableEq, Repr

/-- `BP_ERROR`, `BP_FALSE`, or the order of the list and its elements in the array. -/
inductive Checked (α : Type)
  | error (e : ListError)
  | fails
  | list (order : ListOrder) (arr : List α)
deriving DecidableEq, Repr

/-- `len++` with an `int`. -/
def nextLen (len : ℕ) : Except QsortTrap Unit := if len < 2 ^ 31 - 1 then pure () else throw .int

section
variable {α β : Type} (elem : β → Option α) (gt lt : α → α → Bool) (store : ℕ → Except QsortTrap Bool)

def checkedEnd (tail : ListEnd) (asorted dsorted : Bool) (arr : List α) : Checked α :=
  match tail with
  | .ref => .error .instantiation
  | .other => .error .type
  | .nil => .list (if asorted then .asorted else if dsorted then .dsorted else .notSorted) arr

/-- The rest of a list behind `pre`. An element that is none is no integer; `store` says whether there is room for one
more element. -/
def sortedLoop (tail : ListEnd) : α → Bool → Bool → List α → List β → Except QsortTrap (Checked α)
  | _, asorted, dsorted, arr, [] => pure (checkedEnd tail asorted dsorted arr)
  | pre, asorted, dsorted, arr, x :: rest =>
    match elem x with
    | none => pure .fails
    | some elm => do
      if ← store arr.length then
        sortedLoop tail elm (asorted && !gt pre elm) (dsorted && !lt pre elm) (arr ++ [elm]) rest
      else pure .fails

def alreadySorted (lst : ListArg β) : Except QsortTrap (Checked α) :=
  match lst.elems with
  | [] => pure (checkedEnd lst.tail true true [])
  | x :: rest =>
    match elem x with
    | none => pure .fails
    | some pre => sortedLoop elem gt lt store lst.tail pre true true [pre] rest

end

/-- There are `room` words from `arr` on, below `local_top`; the check comes before `len++`. -/
def storeInt (room len : ℕ) : Except QsortTrap Bool := do
  if len ≥ room then pure false
  else
    nextLen len
    pure true

/-- The check comes after `len++`. -/
def storeTerm (room len : ℕ) : Except QsortTrap Bool := do
  nextLen len
  pure (decide (len + 1 < room))

def bpAlreadySortedIntList (room : ℕ) (lst : ListArg (Option ℤ)) : Except QsortTrap (Checked ℤ) :=
  alreadySorted id (fun pre elm => pre > elm) (fun pre elm => pre < elm) (storeInt room) lst

def bpAlreadySortedTermList {α : Type} (bpCompare : α → α → ℤ) (room : ℕ) (lst : ListArg α) :
    Except QsortTrap (Checked α) :=
  alreadySorted some (fun pre elm => bpCompare pre elm > 0) (fun pre elm => bpCompare pre elm < 0) (storeTerm room) lst

def bpReverseList {α : Type} (lst : List α) : List α := lst.foldl (fun revLst elm => elm :: revLst) []

/-- The list that is unified with the second argument, or a failure, or an error. -/
inductive SortResult (α : Type)
  | unify (lst : List α)
  | fails
  | error (e : ListError)
deriving DecidableEq, Repr

def sortIntList (avail : ℕ) : Checked ℤ → Except QsortTrap (SortResult ℤ)
  | .list .asorted arr => pure (.unify arr)
  | .list .dsorted arr => if avail ≤ 2 * arr.length then pure .fails else pure (.unify (bpReverseList arr))
  | .error e => pure (.error e)
  | .fails => pure .fails
  | .list .notSorted arr => .unify <$> qsortIntArray arr

/-- There are `avail` words from `heap_top` on, below `local_top`. -/
def bSortIntList (avail : ℕ) (lst : ListArg (Option ℤ)) : Except QsortTrap (SortResult ℤ) := do
  sortIntList avail (← bpAlreadySortedIntList (avail / 3) lst)

section
variable {α : Type} [DecidableEq α] (bpCompare : α → α → ℤ)

def sortTermList : Checked α → Except QsortTrap (SortResult α)
  | .list .asorted arr => pure (.unify arr)
  | .list .dsorted arr => pure (.unify (bpReverseList arr))
  | .error e => pure (.error e)
  | .fails => pure .fails
  | .list .notSorted arr => .unify <$> qsortTermArray bpCompare arr

def cSortTermList (avail : ℕ) (lst : ListArg α) : Except QsortTrap (SortResult α) := do
  sortTermList bpCompare (← bpAlreadySortedTermList bpCompare (avail / 3) lst)

end

/-! ## The order that is found -/

section
variable {α β : Type} (elem : β → Option α) (r : α → α → Prop) (store : ℕ → Except QsortTrap Bool)

def Found (lst : ListArg β) : Checked α → Prop
  | .list order arr => lst.tail = .nil ∧ lst.elems.map elem = arr.map some ∧
      (order = .asorted → arr.Pairwise r) ∧ (order = .dsorted → arr.Pairwise fun x y => r y x)
  | .fails => (∃ x ∈ lst.elems, elem x = none) ∨ ∃ len < lst.elems.length, store len = .ok false
  | .error _ => lst.tail ≠ .nil

/-- The elements up to `pre`, and what the two flags say of them. -/
structure PassedElems (pre : α) (asorted dsorted : Bool) (arr : List α) (done : List β) : Prop where
  elems : done.map elem = arr.map some
  asorted : asorted = true → arr.Pairwise r ∧ ∀ x ∈ arr, r x pre
  dsorted : dsorted = true → (arr.Pairwise fun x y => r y x) ∧ ∀ x ∈ arr, r pre x

variable {elem r store} {gt lt : α → α → Bool} {tail : ListEnd} {pre : α} {asorted dsorted : Bool} {arr : List α}

theorem found_checkedEnd {elems : List β} (helems : elems.map elem = arr.map some)
    (ha : asorted = true → arr.Pairwise r) (hd : dsorted = true → arr.Pairwise fun x y => r y x) :
    Found elem r store ⟨elems, tail⟩ (checkedEnd tail asorted dsorted arr) := by
  cases tail with
  | ref => exact nofun
  | other => exact nofun
  | nil =>
    refine ⟨rfl, helems, fun h => ?_, fun h => ?_⟩
    · cases asorted with
      | true => exact ha rfl
      | false => cases dsorted <;> cases h
    · cases asorted with
      | true => cases h
      | false =>
        cases dsorted with
        | true => exact hd rfl
        | false => cases h

theorem PassedElems.snoc {done : List β} {x : β} {elm : α} (P : PassedElems elem r pre asorted dsorted arr done)
    (hgt : ∀ x y, gt x y = false → r x y) (hlt : ∀ x y, lt x y = false → r y x) (hrefl : ∀ x, r x x)
    (htrans : ∀ x y z, r x y → r y z → r x z) (hx : elem x = some elm) :
    PassedElems elem r elm (asorted && !gt pre elm) (dsorted && !lt pre elm) (arr ++ [elm]) (done ++ [x]) := by
  refine ⟨?_, fun h => ?_, fun h => ?_⟩
  · rw [List.map_append, List.map_append, P.elems, map_singleton, map_singleton, hx]
  · obtain ⟨ha, hstep⟩ := (Bool.and_eq_true _ _).mp h
    obtain ⟨hpair, hall⟩ := P.asorted ha
    have hle : ∀ x ∈ arr, r x elm := fun x hx => htrans x pre elm (hall x hx) (hgt pre elm (Bool.not_eq_true' _ ▸ hstep))
    refine ⟨pairwise_append.2 ⟨hpair, pairwise_singleton _ _, fun x hx y hy => ?_⟩, fun x hx => ?_⟩
    · rw [mem_singleton.1 hy]
      exact hle x hx
    · rcases mem_append.1 hx with hx | hx
      · exact hle x hx
      · rw [mem_singleton.1 hx]
        exact hrefl elm
  · obtain ⟨hd, hstep⟩ := (Bool.and_eq_true _ _).mp h
    obtain ⟨hpair, hall⟩ := P.dsorted hd
    have hle : ∀ x ∈ arr, r elm x := fun x hx => htrans elm pre x (hlt pre elm (Bool.not_eq_true' _ ▸ hstep)) (hall x hx)
    refine ⟨pairwise_append.2 ⟨hpair, pairwise_singleton _ _, fun x hx y hy => ?_⟩, fun x hx => ?_⟩
    · rw [mem_singleton.1 hy]
      exact hle x hx
    · rcases mem_append.1 hx with hx | hx
      · exact hle x hx
      · rw [mem_singleton.1 hx]
        exact hrefl elm

section
variable (hgt : ∀ x y, gt x y = false → r x y) (hlt : ∀ x y, lt x y = false → r y x) (hrefl : ∀ x, r x x)
  (htrans : ∀ x y z, r x y → r y z → r x z) (hstore : ∀ len < 2 ^ 31 - 1, ∃ ok, store len = .ok ok)
include hgt hlt hrefl htrans hstore

theorem sortedLoop_run {done rest : List β}
    (P : PassedElems elem r pre asorted dsorted arr done) (hlen : (done ++ rest).length < 2 ^ 31) :
    ∃ c, sortedLoop elem gt lt store tail pre asorted dsorted arr rest = .ok c ∧
      Found elem r store ⟨done ++ rest, tail⟩ c := by
  induction rest generalizing pre asorted dsorted arr done with
  | nil =>
    rw [append_nil]
    exact ⟨_, rfl, found_checkedEnd P.elems (fun h => (P.asorted h).1) fun h => (P.dsorted h).1⟩
  | cons x rest ih =>
    have harr : arr.length = done.length := by
      have h := congrArg List.length P.elems
      rw [length_map, length_map] at h
      exact h.symm
    have hlt' : arr.length < (done ++ x :: rest).length := by
      rw [harr, length_append, length_cons]
      omega
    obtain ⟨ok, hok⟩ := hstore arr.length (by omega)
    rw [sortedLoop]
    cases hx : elem x with
    | none => exact ⟨.fails, rfl, .inl ⟨x, mem_append_right _ mem_cons_self, hx⟩⟩
    | some elm =>
      simp only [hok]
      cases ok with
      | false => exact ⟨.fails, rfl, .inr ⟨arr.length, hlt', hok⟩⟩
      | true =>
        have hsplit : done ++ x :: rest = (done ++ [x]) ++ rest := by
          rw [append_assoc, singleton_append]
        rw [hsplit] at hlen ⊢
        exact ih (P.snoc hgt hlt hrefl htrans hx) hlen

theorem alreadySorted_run (lst : ListArg β) (hlen : lst.elems.length < 2 ^ 31) :
    ∃ c, alreadySorted elem gt lt store lst = .ok c ∧ Found elem r store lst c := by
  obtain ⟨elems, tail⟩ := lst
  cases elems with
  | nil => exact ⟨_, rfl, found_checkedEnd rfl (fun _ => .nil) fun _ => .nil⟩
  | cons x rest =>
    rw [alreadySorted]
    cases hx : elem x with
    | none => exact ⟨.fails, by simp only [hx]; rfl, .inl ⟨x, mem_cons_self, hx⟩⟩
    | some elm =>
      simp only [hx]
      have P : PassedElems elem r elm true true [elm] [x] := by
        refine ⟨?_, fun _ => ⟨pairwise_singleton _ _, fun y hy => ?_⟩,
          fun _ => ⟨pairwise_singleton _ _, fun y hy => ?_⟩⟩
        · rw [map_singleton, map_singleton, hx]
        · rw [mem_singleton.1 hy]
          exact hrefl elm
        · rw [mem_singleton.1 hy]
          exact hrefl elm
      exact sortedLoop_run hgt hlt hrefl htrans hstore P hlen

end

end

/-! ## The lists that are returned -/

structure Comparison {α : Type} (cmp : α → α → ℤ) : Prop where
  swap : ∀ x y, cmp x y ≤ 0 ↔ 0 ≤ cmp y x
  trans : ∀ x y z, cmp x y ≤ 0 → cmp y z ≤ 0 → cmp x z ≤ 0

theorem orders_int : Orders (fun x y : ℤ => decide (x > y)) (fun x y => decide (x ≤ y)) (· ≤ ·) where
  gt_iff x y := by rw [decide_eq_true_iff, gt_iff_lt, Int.not_le]
  le_iff x y := decide_eq_true_iff
  total := Int.le_total
  trans _ _ _ := Int.le_trans

section
variable {α : Type} {cmp : α → α → ℤ} (C : Comparison cmp)
include C

theorem Comparison.total (x y : α) : cmp x y ≤ 0 ∨ cmp y x ≤ 0 :=
  (Int.le_total (cmp x y) 0).imp_right (C.swap y x).2

theorem Comparison.orders : Orders (fun x y => decide (cmp x y > 0)) (fun x y => decide (cmp x y ≤ 0))
    (fun x y => cmp x y ≤ 0) where
  gt_iff x y := by rw [decide_eq_true_iff, gt_iff_lt, Int.not_le]
  le_iff x y := decide_eq_true_iff
  total := C.total
  trans := C.trans

end

theorem qsortIntArray_sorts (arr : List ℤ) (hlen : arr.length < 2 ^ 31) :
    ∃ arr', qsortIntArray arr = .ok arr' ∧ arr'.Perm arr ∧ arr'.Pairwise (· ≤ ·) := by
  have hint : toInt arr.length = arr.length := by
    apply Int.bmod_eq_of_le <;> omega
  obtain ⟨arr', hrun, hperm, hsorted⟩ :=
    qsortFrom_run orders_int (hlen.trans (Nat.pow_lt_pow_right Nat.one_lt_two (by decide)))
  refine ⟨arr', ?_, hperm, hsorted⟩
  rw [qsortIntArray, hint, hrun]
  rfl

theorem qsortTermArray_sorts {α : Type} [DecidableEq α] {cmp : α → α → ℤ} (C : Comparison cmp) (arr : List α)
    (hlen : arr.length < 2 ^ 63) :
    ∃ arr', qsortTermArray cmp arr = .ok arr' ∧ arr'.Perm arr ∧ arr'.Pairwise fun x y => cmp x y ≤ 0 := by
  obtain ⟨arr', hrun, hperm, hsorted⟩ :=
    qsortFrom_run C.orders (hlen.trans (Nat.pow_lt_pow_right Nat.one_lt_two (by decide)))
  refine ⟨arr', ?_, hperm, hsorted⟩
  rw [qsortTermArray, hrun]
  rfl

theorem bpReverseList_eq {α : Type} (l : List α) : bpReverseList l = l.reverse :=
  foldl_flip_cons_eq_append'.trans (append_nil _)

theorem storeInt_eq {room len : ℕ} (hlen : len < 2 ^ 31 - 1) : storeInt room len = .ok (decide (len < room)) := by
  unfold storeInt nextLen
  by_cases h : len < room
  · rw [if_neg (by omega), if_pos hlen, decide_eq_true h]
    rfl
  · rw [if_pos (by omega), decide_eq_false h]
    rfl

theorem storeTerm_eq {room len : ℕ} (hlen : len < 2 ^ 31 - 1) : storeTerm room len = .ok (decide (len + 1 < room)) := by
  unfold storeTerm nextLen
  rw [if_pos hlen]
  rfl

/-- The result for a list: a sorted list of all its elements; a failure where there are others than integers or too
many; an error where it does not end with `[]`. -/
def Returned {α β : Type} (elem : β → Option α) (r : α → α → Prop) (tooLong : Prop) (lst : ListArg β) :
    SortResult α → Prop
  | .unify l => lst.tail = .nil ∧ l.Pairwise r ∧ (l.map some).Perm (lst.elems.map elem)
  | .fails => (∃ x ∈ lst.elems, elem x = none) ∨ tooLong
  | .error _ => lst.tail ≠ .nil

theorem bpAlreadySortedIntList_run (room : ℕ) {lst : ListArg (Option ℤ)} (hlen : lst.elems.length < 2 ^ 31) :
    ∃ c, bpAlreadySortedIntList room lst = .ok c ∧ Found id (· ≤ ·) (storeInt room) lst c := by
  apply alreadySorted_run
  · exact fun x y h => Int.not_lt.1 (of_decide_eq_false h)
  · exact fun x y h => Int.not_lt.1 (of_decide_eq_false h)
  · exact Int.le_refl
  · exact fun x y z => Int.le_trans
  · exact fun len h => ⟨_, storeInt_eq h⟩
  · exact hlen

theorem bpAlreadySortedTermList_run {α : Type} {cmp : α → α → ℤ} (C : Comparison cmp) (room : ℕ) {lst : ListArg α}
    (hlen : lst.elems.length < 2 ^ 31) : ∃ c, bpAlreadySortedTermList cmp room lst = .ok c ∧
      Found some (fun x y => cmp x y ≤ 0) (storeTerm room) lst c :=
  alreadySorted_run (fun _ _ h => Int.not_lt.1 (of_decide_eq_false h))
    (fun x y h => (C.swap y x).2 (Int.not_lt.1 (of_decide_eq_false h)))
    (fun x => (C.total x x).elim id id) C.trans (fun _ h => ⟨_, storeTerm_eq h⟩) lst hlen

theorem except_ok_bind {ε α β : Type} (a : α) (f : α → Except ε β) : (Except.ok a >>= f) = f a := rfl

theorem unify_of_ok {α : Type} {m : Except QsortTrap (List α)} {l : List α} (h : m = .ok l) :
    SortResult.unify <$> m = .ok (.unify l) := by
  rw [h]
  rfl

theorem length_of_map {α β : Type} {elem : β → Option α} {elems : List β} {arr : List α}
    (h : elems.map elem = arr.map some) : elems.length = arr.length := by
  have hlen := congrArg List.length h
  rwa [length_map, length_map] at hlen

theorem returned_reverse {α β : Type} {elem : β → Option α} {r : α → α → Prop} (tooLong : Prop) {lst : ListArg β}
    {arr : List α} (htail : lst.tail = .nil) (helems : lst.elems.map elem = arr.map some)
    (hd : arr.Pairwise fun x y => r y x) : Returned elem r tooLong lst (.unify (bpReverseList arr)) := by
  refine ⟨htail, ?_, ?_⟩
  · rw [bpReverseList_eq]
    exact pairwise_reverse.2 hd
  · rw [bpReverseList_eq, helems]
    exact arr.reverse_perm.map some

theorem bSortIntList_run (avail : ℕ) {lst : ListArg (Option ℤ)} (hlen : lst.elems.length < 2 ^ 31) :
    ∃ res, bSortIntList avail lst = .ok res ∧ Returned id (· ≤ ·) (avail / 3 < lst.elems.length) lst res := by
  obtain ⟨c, hrun, hfound⟩ := bpAlreadySortedIntList_run (avail / 3) hlen
  rw [bSortIntList, hrun, except_ok_bind]
  cases c with
  | error e => exact ⟨.error e, rfl, hfound⟩
  | fails =>
    refine ⟨.fails, rfl, hfound.imp_right ?_⟩
    rintro ⟨len, hlt, hfull⟩
    rw [storeInt_eq (by omega), Except.ok.injEq, decide_eq_false_iff_not] at hfull
    omega
  | list order arr =>
    obtain ⟨htail, helems, ha, hd⟩ := hfound
    have harr := length_of_map helems
    cases order with
    | asorted => exact ⟨.unify arr, rfl, htail, ha rfl, .of_eq helems.symm⟩
    | dsorted =>
      by_cases hroom : avail ≤ 2 * arr.length
      · refine ⟨.fails, if_pos hroom, .inr ?_⟩
        have hne : lst.elems ≠ [] := by
          rintro hnil
          obtain ⟨elems, tail⟩ := lst
          subst hnil
          subst htail
          cases hrun
        have hpos := length_pos_iff.2 hne
        omega
      · exact ⟨_, if_neg hroom, returned_reverse _ htail helems (hd rfl)⟩
    | notSorted =>
      obtain ⟨arr', hsort, hperm, hsorted⟩ := qsortIntArray_sorts arr (by omega)
      exact ⟨.unify arr', unify_of_ok hsort, htail, hsorted, helems ▸ hperm.map some⟩

theorem cSortTermList_run {α : Type} [DecidableEq α] {cmp : α → α → ℤ} (C : Comparison cmp) (avail : ℕ)
    {lst : ListArg α} (hlen : lst.elems.length < 2 ^ 31) : ∃ res, cSortTermList cmp avail lst = .ok res ∧
      Returned some (fun x y => cmp x y ≤ 0) (avail / 3 ≤ lst.elems.length) lst res := by
  obtain ⟨c, hrun, hfound⟩ := bpAlreadySortedTermList_run C (avail / 3) hlen
  rw [cSortTermList, hrun, except_ok_bind]
  cases c with
  | error e => exact ⟨.error e, rfl, hfound⟩
  | fails =>
    refine ⟨.fails, rfl, hfound.imp_right ?_⟩
    rintro ⟨len, hlt, hfull⟩
    rw [storeTerm_eq (by omega), Except.ok.injEq, decide_eq_false_iff_not] at hfull
    omega
  | list order arr =>
    obtain ⟨htail, helems, ha, hd⟩ := hfound
    have harr := length_of_map helems
    cases order with
    | asorted => exact ⟨.unify arr, rfl, htail, ha rfl, .of_eq helems.symm⟩
    | dsorted => exact ⟨_, rfl, returned_reverse _ htail helems (hd rfl)⟩
    | notSorted =>
      obtain ⟨arr', hsort, hperm, hsorted⟩ := qsortTermArray_sorts C arr (by omega)
      exact ⟨.unify arr', unify_of_ok hsort, htail, hsorted, helems ▸ hperm.map some⟩

/-- Both routines sort the arrays whose lengths their types hold; the order that is found is there; and both predicates
return the sorted list with all its elements, fail, or report an error. -/
theorem sort_lists : (∀ arr : List ℤ, arr.length < 2 ^ 31 →
      ∃ arr', qsortIntArray arr = .ok arr' ∧ arr'.Perm arr ∧ arr'.Pairwise (· ≤ ·)) ∧
    (∀ (room : ℕ) (lst : ListArg (Option ℤ)), lst.elems.length < 2 ^ 31 →
      ∃ c, bpAlreadySortedIntList room lst = .ok c ∧ Found id (· ≤ ·) (storeInt room) lst c) ∧
    (∀ (avail : ℕ) (lst : ListArg (Option ℤ)), lst.elems.length < 2 ^ 31 →
      ∃ res, bSortIntList avail lst = .ok res ∧ Returned id (· ≤ ·) (avail / 3 < lst.elems.length) lst res) ∧
    ∀ (α : Type) [DecidableEq α] (cmp : α → α → ℤ), Comparison cmp → (∀ arr : List α, arr.length < 2 ^ 63 →
        ∃ arr', qsortTermArray cmp arr = .ok arr' ∧ arr'.Perm arr ∧ arr'.Pairwise fun x y => cmp x y ≤ 0) ∧
      (∀ (room : ℕ) (lst : ListArg α), lst.elems.length < 2 ^ 31 → ∃ c, bpAlreadySortedTermList cmp room lst = .ok c ∧
          Found some (fun x y => cmp x y ≤ 0) (storeTerm room) lst c) ∧
      ∀ (avail : ℕ) (lst : ListArg α), lst.elems.length < 2 ^ 31 → ∃ res, cSortTermList cmp avail lst = .ok res ∧
          Returned some (fun x y => cmp x y ≤ 0) (avail / 3 ≤ lst.elems.length) lst res :=
  ⟨qsortIntArray_sorts, fun room _ => bpAlreadySortedIntList_run room,
    fun avail _ => bSortIntList_run avail, fun _ _ _ C => ⟨qsortTermArray_sorts C,
      fun room _ => bpAlreadySortedTermList_run C room, fun avail _ => cSortTermList_run C avail⟩⟩

theorem qsortIntArray_wrap {arr : List ℤ} (hlen : arr.length = 2 ^ 32) : qsortIntArray arr = .ok arr := by
  have hint : toInt arr.length = 0 := by
    rw [hlen]
    decide
  rw [qsortIntArray, hint]
  rfl

/-- An array of 2 ^ 32 integers; a list in which one is there twice; and one for which there is no room. -/
theorem sort_lists_not : (¬ ∀ arr : List ℤ, ∃ arr', qsortIntArray arr = .ok arr' ∧ arr'.Pairwise (· ≤ ·)) ∧
    bSortIntList 30 ⟨[some 2, some 1, some 2], .nil⟩ = .ok (.unify [1, 2, 2]) ∧
    cSortTermList (fun x y : ℤ => x - y) 30 ⟨[2, 1, 2], .nil⟩ = .ok (.unify [1, 2, 2]) ∧
    bSortIntList 6 ⟨[some 2, some 1, some 2], .nil⟩ = .ok .fails := by
  refine ⟨fun h => ?_, by decide, by decide, by decide⟩
  obtain ⟨k, hk⟩ : ∃ k, k + 1 = 2 ^ 32 - 1 := ⟨_, rfl⟩
  obtain ⟨arr', hrun, hsorted⟩ := h (1 :: List.replicate (k + 1) 0)
  rw [qsortIntArray_wrap (by rw [length_cons, length_replicate]; omega), Except.ok.injEq] at hrun
  subst hrun
  have hle := (pairwise_cons.1 hsorted).1 0 (mem_replicate.2 ⟨Nat.succ_ne_zero k, rfl⟩)
  exact absurd hle (by decide)

end Picat
