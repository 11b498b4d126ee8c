import Picat.Sort.SortList

/-!
# Insertion into ordered lists

The five routines of `mic.c` copy the elements in front of the new one to the top of the heap, each through the tail of
the one before, and share the rest of the list.

* `insertOrdered_spec` : the lists that come out.
-/

namespace Picat.InsertOrdered
open List Function

/-- A word: `[]`, a tagged list, a reference, or another term. -/
inductive Cell (α : Type) where
  | nil
  | list (p : ℕ)
  | ref (p : ℕ)
  | term (t : α)
  deriving DecidableEq, Repr

/-- The words, of which `none` is the variable `lst_cp`. -/
abbrev Memory (α : Type) : Type := Option ℕ → Cell α

/-- The memory, `heap_top` and `tail_ptr`. -/
structure Copy (α : Type) where
  mem : Memory α
  heapTop : ℕ
  tailPtr : Option ℕ

inductive Inserted (α : Type) where
  /-- The term that `ret_lst` is bound to, the memory and `heap_top`. -/
  | bound (lst : Cell α) (mem : Memory α) (heapTop : ℕ)
  /-- `c_type_error(et_LIST, lst)` -/
  | error (lst : Cell α)

section
variable {α : Type}

/-- `FOLLOW(tail_ptr) = ADDTAG(heap_top, LST); NEW_HEAP_NODE(t1); tail_ptr = heap_top++` -/
def Copy.append (c : Copy α) (t1 : Cell α) : Copy α :=
  ⟨update (update c.mem c.tailPtr (.list c.heapTop)) (some c.heapTop) t1, c.heapTop + 2, some (c.heapTop + 1)⟩

/-- The end of all the routines: the new element and, in the place of its tail, the rest of the list. -/
def Copy.finish (c : Copy α) (t lst : Cell α) : Inserted α :=
  let c := c.append t
  let mem := update c.mem c.tailPtr lst
  .bound (mem none) mem c.heapTop

def deref (mem : Memory α) : ℕ → Cell α → Cell α
  | fuel + 1, .ref p =>
    match mem p with
    | .ref q => if q = p then .ref p else deref mem fuel (.ref q)
    | lst => lst
  | _, lst => lst

variable (bpCompare : Cell α → Cell α → ℤ)

/-- The `while` loop, with the comparison that ends it and the one that finds `t` in the list, and what follows it. -/
def insertLoop (stop found : ℤ → Bool) (t lst0 : Cell α) (heapTop0 : ℕ) : ℕ → Copy α → Cell α → Option (Inserted α)
  | 0, _, _ => none
  | fuel + 1, c, lst =>
    match deref c.mem fuel lst with
    | .list p =>
      if stop (bpCompare t (c.mem p)) then some (c.finish t (.list p))
      else if found (bpCompare t (c.mem p)) then some (.bound lst0 c.mem heapTop0)
      else insertLoop stop found t lst0 heapTop0 fuel (c.append (c.mem p)) (c.mem ↑(p + 1))
    | .nil => some (c.finish t .nil)
    | lst => some (.error lst)

def insertOrdered (stop found : ℤ → Bool) (fuel : ℕ) (mem : Memory α) (heapTop : ℕ) (lst t : Cell α) :
    Option (Inserted α) :=
  insertLoop bpCompare stop found t (deref mem fuel lst) heapTop fuel ⟨mem, heapTop, none⟩ lst

def bInsertOrderedCcf := insertOrdered bpCompare (· ≤ 0) fun _ => false

def bInsertOrderedNoDupCcf := insertOrdered bpCompare (· < 0) (· = 0)

def bInsertOrderedDownCcf := insertOrdered bpCompare (· ≥ 0) fun _ => false

def bInsertOrderedDownNoDupCcf := insertOrdered bpCompare (· > 0) (· = 0)

/-- The jump out of the loop skips a test that it would pass. -/
def bInsertStateListCcf := insertOrdered bpCompare (· ≤ 0) fun _ => false

/-! ## Lists on the heap -/

/-- The list that a word stands for, in cells below `n`. -/
inductive Represents (mem : Memory α) (n : ℕ) : Cell α → List (Cell α) → Prop where
  | nil : Represents mem n .nil []
  | list {p : ℕ} {xs : List (Cell α)} (hp : p + 1 < n) (hxs : Represents mem n (mem ↑(p + 1)) xs) :
      Represents mem n (.list p) (mem p :: xs)
  | ref {p : ℕ} {xs : List (Cell α)} (hp : p < n) (hxs : Represents mem n (mem p) xs) : Represents mem n (.ref p) xs

variable {mem mem' : Memory α} {n n' : ℕ} {lst t x : Cell α} {xs pre : List (Cell α)} {c : Copy α}

theorem Represents.agree (h : Represents mem n lst xs) (hn : n ≤ n') (hmem : ∀ a : ℕ, a < n → mem' a = mem a) :
    Represents mem' n' lst xs := by
  induction h with
  | nil => exact .nil
  | list hp _ ih =>
    rw [← hmem _ hp] at ih
    rw [← hmem _ (Nat.lt_of_succ_lt hp)]
    exact .list (hp.trans_le hn) ih
  | ref hp _ ih =>
    rw [← hmem _ hp] at ih
    exact .ref (hp.trans_le hn) ih

theorem deref_of_not_ref (h : ∀ p, lst ≠ .ref p) (fuel : ℕ) : deref mem fuel lst = lst := by
  cases lst with
  | ref p => exact absurd rfl (h p)
  | _ => cases fuel <;> rfl

theorem deref_self {p : ℕ} (h : mem p = .ref p) (fuel : ℕ) : deref mem fuel (mem p) = .ref p := by
  rw [h]
  cases fuel with
  | zero => rfl
  | succ fuel => simp [deref, h]

theorem Represents.deref (h : Represents mem n lst xs) :
    ∃ N v, (∀ fuel, N ≤ fuel → deref mem fuel lst = v) ∧ Represents mem n v xs ∧ ∀ p, v ≠ .ref p := by
  induction h with
  | nil => exact ⟨0, .nil, fun fuel _ => deref_of_not_ref (by simp) fuel, .nil, by simp⟩
  | @list p xs hp hxs _ => exact ⟨0, .list p, fun fuel _ => deref_of_not_ref (by simp) fuel, .list hp hxs, by simp⟩
  | @ref p xs hp hxs ih =>
    obtain ⟨N, v, hrun, hv, href⟩ := ih
    refine ⟨N + 1, v, fun fuel hfuel => ?_, hv, href⟩
    obtain ⟨fuel, rfl⟩ := Nat.exists_eq_succ_of_ne_zero (Nat.ne_zero_of_lt hfuel)
    have hnext := hrun fuel (Nat.le_of_succ_le_succ hfuel)
    rw [InsertOrdered.deref]
    cases hcell : mem p with
    | ref q =>
      have hne : q ≠ p := by
        rintro rfl
        exact href q ((hrun N (le_refl N)).symm.trans (deref_self hcell N))
      rw [hcell] at hnext
      exact (if_neg hne).trans hnext
    | nil => rwa [hcell, deref_of_not_ref (by simp)] at hnext
    | list q => rwa [hcell, deref_of_not_ref (by simp)] at hnext
    | term a => rwa [hcell, deref_of_not_ref (by simp)] at hnext

/-! ## The copy -/

/-- The old cells are as they were, and a list in the place of the open tail is one behind the copied elements. -/
structure Copying (mem : Memory α) (n : ℕ) (c : Copy α) (pre : List (Cell α)) : Prop where
  top : n ≤ c.heapTop
  old : ∀ a : ℕ, a < n → c.mem a = mem a
  tail : ∀ p, c.tailPtr = some p → n ≤ p ∧ p < c.heapTop
  fill : ∀ mem' m zs, c.heapTop ≤ m → (∀ q, (∀ a, q = some a → a < c.heapTop) → q ≠ c.tailPtr → mem' q = c.mem q) →
    Represents mem' m (mem' c.tailPtr) zs → Represents mem' m (mem' none) (pre ++ zs)

theorem Copying.start : Copying mem n ⟨mem, n, none⟩ [] where
  top := le_refl n
  old _ _ := rfl
  tail p hp := by cases hp
  fill _ _ _ _ _ hzs := hzs

theorem Copying.append (h : Copying mem n c pre) (x : Cell α) : Copying mem n (c.append x) (pre ++ [x]) where
  top := h.top.trans (Nat.le_add_right _ 2)
  old a ha := by
    have htop := h.top
    have htail : some a ≠ c.tailPtr := fun hp => absurd (h.tail a hp.symm).1 ha.not_ge
    have hne : some a ≠ some c.heapTop := by simp only [ne_eq, Option.some.injEq]; omega
    exact (update_of_ne hne _ _).trans ((update_of_ne htail _ _).trans (h.old a ha))
  tail p hp := by
    obtain rfl := Option.some.inj hp
    have htop := h.top
    simp only [Copy.append]
    omega
  fill mem' m zs hm hagree hzs := by
    have hm : c.heapTop + 2 ≤ m := hm
    have hlt : ∀ p, c.tailPtr = some p → p < c.heapTop := fun p hp => (h.tail p hp).2
    have hnew : ∀ q, (∀ a, q = some a → a < c.heapTop + 1) → mem' q = (c.append x).mem q := fun q hq =>
      hagree q (fun a ha => (hq a ha).trans (Nat.lt_succ_self _)) fun heq => (hq _ heq).false
    have hhead : mem' (some c.heapTop) = x :=
      (hnew _ fun a ha => Option.some.inj ha ▸ Nat.lt_succ_self _).trans (update_self ..)
    have hlink : mem' c.tailPtr = .list c.heapTop := by
      rw [hnew _ fun a ha => (hlt a ha).trans (Nat.lt_succ_self _)]
      exact (update_of_ne (fun hp => (hlt _ hp).false) _ _).trans (update_self ..)
    rw [append_assoc, singleton_append]
    refine h.fill mem' m (x :: zs) (by omega) (fun q hq hne => ?_) ?_
    · rw [hnew q fun a ha => (hq a ha).trans (Nat.lt_succ_self _)]
      exact (update_of_ne (fun heq => (hq _ heq).false) _ _).trans (update_of_ne hne _ _)
    · rw [hlink, ← hhead]
      exact .list hm hzs

/-- What the routines end with: the new element stands behind the copied ones, and the rest is shared. -/
theorem Copying.finish (h : Copying mem n c pre) (hlst : Represents mem n lst xs) (t : Cell α) :
    ∃ w mem' m, c.finish t lst = .bound w mem' m ∧ n ≤ m ∧ (∀ a : ℕ, a < n → mem' a = mem a) ∧
      Represents mem' m w (pre ++ t :: xs) := by
  have happend := h.append t
  have hold : ∀ a : ℕ, a < n → update (c.append t).mem (c.append t).tailPtr lst a = mem a := fun a ha =>
    (update_of_ne (fun hp => absurd (happend.tail a hp.symm).1 ha.not_ge) _ _).trans (happend.old a ha)
  have hfill := happend.fill (update (c.append t).mem (c.append t).tailPtr lst) (c.append t).heapTop xs (le_refl _)
    (fun q _ hne => update_of_ne hne _ _) (by rw [update_self]; exact hlst.agree happend.top hold)
  rw [append_assoc, singleton_append] at hfill
  exact ⟨_, _, _, rfl, happend.top, hold, hfill⟩

/-! ## The loop -/

/-- The list that comes out, unless `t` is found. -/
def insertedList (stop found : ℤ → Bool) (t : Cell α) : List (Cell α) → Option (List (Cell α))
  | [] => some [t]
  | x :: xs =>
    if stop (bpCompare t x) then some (t :: x :: xs)
    else if found (bpCompare t x) then none
    else (insertedList stop found t xs).map (x :: ·)

/-- The list that comes out of the loop, which leaves the old cells alone, or the list `lst0` that went in. -/
def LoopMeets (mem : Memory α) (n : ℕ) (lst0 : Cell α) (pre : List (Cell α)) :
    Option (List (Cell α)) → Option (Inserted α) → Prop
  | none, res => ∃ mem', res = some (.bound lst0 mem' n) ∧ ∀ a : ℕ, a < n → mem' a = mem a
  | some ys, res => ∃ w mem' m, res = some (.bound w mem' m) ∧ n ≤ m ∧ (∀ a : ℕ, a < n → mem' a = mem a) ∧
      Represents mem' m w (pre ++ ys)

theorem insertLoop_spec (stop found : ℤ → Bool) (t lst0 : Cell α) (h : Represents mem n lst xs)
    (hc : Copying mem n c pre) : ∃ N, ∀ fuel, N ≤ fuel →
      LoopMeets mem n lst0 pre (insertedList bpCompare stop found t xs)
        (insertLoop bpCompare stop found t lst0 n fuel c lst) := by
  induction xs generalizing lst c pre with
  | nil =>
    obtain ⟨N, v, hrun, hv, href⟩ := (h.agree (le_refl n) hc.old).deref
    refine ⟨N + 1, fun fuel hfuel => ?_⟩
    obtain ⟨fuel, rfl⟩ := Nat.exists_eq_succ_of_ne_zero (Nat.ne_zero_of_lt hfuel)
    rw [insertLoop, hrun fuel (Nat.le_of_succ_le_succ hfuel)]
    cases hv with
    | nil =>
      obtain ⟨w, mem', m, hfin, hle, hold, hrep⟩ := hc.finish .nil t
      exact ⟨w, mem', m, congrArg some hfin, hle, hold, hrep⟩
    | ref hp hxs => exact absurd rfl (href _)
  | cons x xs ih =>
    obtain ⟨N, v, hrun, hv, href⟩ := (h.agree (le_refl n) hc.old).deref
    cases hv with
    | ref hp hxs => exact absurd rfl (href _)
    | @list p _ hp hxs =>
      have hold := hc.old
      have hrest : Represents mem n (c.mem ↑(p + 1)) xs := hxs.agree (le_refl n) fun a ha => (hold a ha).symm
      obtain ⟨N', hloop⟩ := ih hrest (hc.append (c.mem p))
      refine ⟨max N N' + 1, fun fuel hfuel => ?_⟩
      obtain ⟨fuel, rfl⟩ := Nat.exists_eq_succ_of_ne_zero (Nat.ne_zero_of_lt hfuel)
      rw [insertLoop, hrun fuel (by omega), insertedList]
      by_cases hstop : stop (bpCompare t (c.mem p)) = true
      · have hall : Represents mem n (.list p) (c.mem p :: xs) := by
          rw [hold p (by omega)]
          exact .list hp (hold (p + 1) hp ▸ hrest)
        obtain ⟨w, mem', m, hfin, hle, hold, hrep⟩ := hc.finish hall t
        simp only [if_pos hstop]
        exact ⟨w, mem', m, congrArg some hfin, hle, hold, hrep⟩
      · by_cases hfound : found (bpCompare t (c.mem p)) = true
        · simp only [if_neg hstop, if_pos hfound]
          exact ⟨c.mem, rfl, hold⟩
        · simp only [if_neg hstop, if_neg hfound]
          have hnext := hloop fuel (by omega)
          cases hys : insertedList bpCompare stop found t xs with
          | none => rwa [hys] at hnext
          | some ys =>
            rw [hys, LoopMeets] at hnext
            simpa [LoopMeets] using hnext

/-! ## Order -/

/-- With tests that tell on which side of an element `t` belongs, the result is in order and has every element once more. -/
theorem insertedList_spec {R : Cell α → Cell α → Prop} {stop found : ℤ → Bool} {t : Cell α} {ys : List (Cell α)}
    (htrans : ∀ x y z, R x y → R y z → R x z) (hstop : ∀ x, stop (bpCompare t x) = true → R t x)
    (hgo : ∀ x, stop (bpCompare t x) = false → R x t) (hxs : xs.Pairwise R)
    (h : insertedList bpCompare stop found t xs = some ys) : ys.Pairwise R ∧ ys.Perm (t :: xs) := by
  induction xs generalizing ys with
  | nil =>
    obtain rfl := Option.some.inj h
    exact ⟨pairwise_singleton R t, Perm.refl _⟩
  | cons x xs ih =>
    obtain ⟨hx, hxs'⟩ := pairwise_cons.1 hxs
    rw [insertedList] at h
    split_ifs at h with hs hf
    · obtain rfl := Option.some.inj h
      refine ⟨pairwise_cons.2 ⟨fun y hy => ?_, hxs⟩, Perm.refl _⟩
      rcases mem_cons.1 hy with rfl | hy
      · exact hstop _ hs
      · exact htrans _ _ _ (hstop x hs) (hx y hy)
    · obtain ⟨zs, hzs, rfl⟩ := Option.map_eq_some_iff.1 h
      obtain ⟨hsorted, hperm⟩ := ih hxs' hzs
      refine ⟨pairwise_cons.2 ⟨fun y hy => ?_, hsorted⟩, (hperm.cons x).trans (Perm.swap t x xs)⟩
      rcases mem_cons.1 (hperm.mem_iff.1 hy) with rfl | hy
      · exact hgo x (by simpa using hs)
      · exact hx y hy

theorem insertedList_isSome {stop : ℤ → Bool} {t : Cell α} :
    insertedList bpCompare stop (fun _ => false) t xs ≠ none := by
  induction xs with
  | nil => simp [insertedList]
  | cons x xs ih =>
    rw [insertedList]
    split_ifs <;> simp_all

/-- An element that is equal to `t` is found, since no element before it stops the loop. -/
theorem insertedList_eq_none {R : Cell α → Cell α → Prop} {stop : ℤ → Bool} {t : Cell α}
    (hstop : ∀ x y, stop (bpCompare t x) = true → R x y → bpCompare t y ≠ 0) (hzero : stop 0 = false)
    (hxs : xs.Pairwise R) :
    insertedList bpCompare stop (· = 0) t xs = none ↔ ∃ x ∈ xs, bpCompare t x = 0 := by
  induction xs with
  | nil => simp [insertedList]
  | cons x xs ih =>
    obtain ⟨hx, hxs⟩ := pairwise_cons.1 hxs
    rw [insertedList]
    split_ifs with hs hf
    · refine iff_of_false (by simp) ?_
      rintro ⟨y, hy, heq⟩
      rcases mem_cons.1 hy with rfl | hy
      · rw [heq, hzero] at hs
        exact Bool.false_ne_true hs
      · exact hstop x y hs (hx y hy) heq
    · exact iff_of_true rfl ⟨x, mem_cons_self, by simpa using hf⟩
    · have hne : bpCompare t x ≠ 0 := by simpa using hf
      simp [ih hxs, hne]

/-- The list that comes out is `xs` in order with `t`; the old cells, and `xs` in them, are as they were. -/
def Inserts (R : Cell α → Cell α → Prop) (mem : Memory α) (n : ℕ) (lst t : Cell α) (xs : List (Cell α))
    (res : Option (Inserted α)) : Prop :=
  ∃ w mem' m ys, res = some (.bound w mem' m) ∧ (∀ a : ℕ, a < n → mem' a = mem a) ∧ Represents mem' n lst xs ∧ n ≤ m ∧
    Represents mem' m w ys ∧ ys.Pairwise R ∧ ys.Perm (t :: xs)

/-- The list that went in comes out, and the heap ends where it did. -/
def Shares (mem : Memory α) (n fuel : ℕ) (lst : Cell α) (xs : List (Cell α)) (res : Option (Inserted α)) : Prop :=
  ∃ mem', res = some (.bound (InsertOrdered.deref mem fuel lst) mem' n) ∧ (∀ a : ℕ, a < n → mem' a = mem a) ∧
    Represents mem' n lst xs ∧ Represents mem' n (InsertOrdered.deref mem fuel lst) xs

theorem insertOrdered_run (stop found : ℤ → Bool) (t : Cell α) (h : Represents mem n lst xs) :
    ∃ N, ∀ fuel, N ≤ fuel → Represents mem n (InsertOrdered.deref mem fuel lst) xs ∧
      LoopMeets mem n (InsertOrdered.deref mem fuel lst) [] (insertedList bpCompare stop found t xs)
        (insertOrdered bpCompare stop found fuel mem n lst t) := by
  obtain ⟨N, v, hrun, hv, -⟩ := h.deref
  obtain ⟨N', hloop⟩ := insertLoop_spec bpCompare stop found t v h Copying.start
  refine ⟨max N N', fun fuel hfuel => ?_⟩
  rw [insertOrdered, hrun fuel ((le_max_left N N').trans hfuel)]
  exact ⟨hv, hloop fuel ((le_max_right N N').trans hfuel)⟩

section
variable {R : Cell α → Cell α → Prop} (stop : ℤ → Bool) (htrans : ∀ x y z, R x y → R y z → R x z)
  (hstop : ∀ x, stop (bpCompare t x) = true → R t x) (hgo : ∀ x, stop (bpCompare t x) = false → R x t)
  (h : Represents mem n lst xs)
include htrans hstop hgo h

theorem LoopMeets.inserts {found : ℤ → Bool} {lst0 : Cell α} {res : Option (Inserted α)} (hxs : xs.Pairwise R)
    (hsome : insertedList bpCompare stop found t xs ≠ none)
    (hres : LoopMeets mem n lst0 [] (insertedList bpCompare stop found t xs) res) :
    Inserts R mem n lst t xs res := by
  obtain ⟨ys, hys⟩ := Option.ne_none_iff_exists'.1 hsome
  rw [hys] at hres
  obtain ⟨w, mem', m, hrun, hle, hold, hrep⟩ := hres
  obtain ⟨hsorted, hperm⟩ := insertedList_spec bpCompare htrans hstop hgo hxs hys
  exact ⟨w, mem', m, ys, hrun, hold, h.agree (le_refl n) hold, hle, hrep, hsorted, hperm⟩

theorem inserts_run : ∃ N, ∀ fuel, N ≤ fuel → xs.Pairwise R →
    Inserts R mem n lst t xs (insertOrdered bpCompare stop (fun _ => false) fuel mem n lst t) := by
  obtain ⟨N, hrun⟩ := insertOrdered_run bpCompare stop (fun _ => false) t h
  exact ⟨N, fun fuel hfuel hxs => (hrun fuel hfuel).2.inserts bpCompare stop htrans hstop hgo h hxs
    (insertedList_isSome bpCompare)⟩

theorem insertsNoDup_run (hzero : stop 0 = false)
    (hne : ∀ x y, stop (bpCompare t x) = true → R x y → bpCompare t y ≠ 0) : ∃ N, ∀ fuel, N ≤ fuel →
      xs.Pairwise R → ((∃ x ∈ xs, bpCompare t x = 0) →
        Shares mem n fuel lst xs (insertOrdered bpCompare stop (· = 0) fuel mem n lst t)) ∧
      ((∀ x ∈ xs, bpCompare t x ≠ 0) →
        Inserts R mem n lst t xs (insertOrdered bpCompare stop (· = 0) fuel mem n lst t)) := by
  obtain ⟨N, hrun⟩ := insertOrdered_run bpCompare stop (· = 0) t h
  refine ⟨N, fun fuel hfuel hxs => ?_⟩
  obtain ⟨hderef, hmeets⟩ := hrun fuel hfuel
  have hnone := insertedList_eq_none bpCompare hne hzero hxs
  constructor
  · intro hdup
    rw [hnone.2 hdup] at hmeets
    obtain ⟨mem', hres, hold⟩ := hmeets
    exact ⟨mem', hres, hold, h.agree (le_refl n) hold, hderef.agree (le_refl n) hold⟩
  · intro hdup
    refine hmeets.inserts bpCompare stop htrans hstop hgo h hxs fun heq => ?_
    obtain ⟨x, hx, hzero⟩ := hnone.1 heq
    exact hdup x hx hzero

end

/-- Every routine returns the list in its own order with `t` in it; the `NO_DUP` versions return the list that went in,
and all of the heap behind it, if it has an element equal to `t`. -/
theorem insertOrdered_spec {bpCompare : Cell α → Cell α → ℤ} (C : Comparison bpCompare)
    (h : Represents mem n lst xs) (t : Cell α) : ∃ N, ∀ fuel, N ≤ fuel → (xs.Pairwise (fun x y => bpCompare x y ≤ 0) →
        Inserts (fun x y => bpCompare x y ≤ 0) mem n lst t xs (bInsertOrderedCcf bpCompare fuel mem n lst t) ∧
        Inserts (fun x y => bpCompare x y ≤ 0) mem n lst t xs (bInsertStateListCcf bpCompare fuel mem n lst t) ∧
        ((∃ x ∈ xs, bpCompare t x = 0) → Shares mem n fuel lst xs (bInsertOrderedNoDupCcf bpCompare fuel mem n lst t)) ∧
        ((∀ x ∈ xs, bpCompare t x ≠ 0) → Inserts (fun x y => bpCompare x y ≤ 0) mem n lst t xs
          (bInsertOrderedNoDupCcf bpCompare fuel mem n lst t))) ∧
      (xs.Pairwise (fun x y => bpCompare x y ≥ 0) →
        Inserts (fun x y => bpCompare x y ≥ 0) mem n lst t xs (bInsertOrderedDownCcf bpCompare fuel mem n lst t) ∧
        ((∃ x ∈ xs, bpCompare t x = 0) →
          Shares mem n fuel lst xs (bInsertOrderedDownNoDupCcf bpCompare fuel mem n lst t)) ∧
        ((∀ x ∈ xs, bpCompare t x ≠ 0) → Inserts (fun x y => bpCompare x y ≥ 0) mem n lst t xs
          (bInsertOrderedDownNoDupCcf bpCompare fuel mem n lst t))) := by
  have hup := C.trans
  have hdown : ∀ x y z, bpCompare x y ≥ 0 → bpCompare y z ≥ 0 → bpCompare x z ≥ 0 := fun x y z hxy hyz =>
    (C.swap z x).1 (C.trans z y x ((C.swap z y).2 hyz) ((C.swap y x).2 hxy))
  have hle : ∀ x, ¬ bpCompare t x ≤ 0 → bpCompare x t ≤ 0 := fun x hx => (C.swap x t).2 (by omega)
  have hge : ∀ x, ¬ bpCompare t x ≥ 0 → bpCompare x t ≥ 0 := fun x hx => (C.swap t x).1 (by omega)
  obtain ⟨N₁, h₁⟩ := inserts_run bpCompare (· ≤ 0) hup (fun _ => of_decide_eq_true)
    (fun x hx => hle x (of_decide_eq_false hx)) h
  obtain ⟨N₂, h₂⟩ := insertsNoDup_run bpCompare (· < 0) hup (fun _ hx => (of_decide_eq_true hx).le)
    (fun x hx => (C.swap x t).2 (not_lt.1 (of_decide_eq_false hx))) h (decide_eq_false (lt_irrefl 0))
    fun x y hx hxy hy => (of_decide_eq_true hx).not_ge ((C.swap x t).1 (C.trans x y t hxy ((C.swap y t).2 hy.ge)))
  obtain ⟨N₃, h₃⟩ := inserts_run bpCompare (· ≥ 0) hdown (fun _ => of_decide_eq_true)
    (fun x hx => hge x (of_decide_eq_false hx)) h
  obtain ⟨N₄, h₄⟩ := insertsNoDup_run bpCompare (· > 0) hdown (fun _ hx => (of_decide_eq_true hx).le)
    (fun x hx => (C.swap t x).1 (not_lt.1 (of_decide_eq_false hx))) h (decide_eq_false (lt_irrefl 0))
    fun x y hx hxy hy => (of_decide_eq_true hx).not_ge (C.trans t y x hy.le ((C.swap y x).2 hxy))
  refine ⟨max (max N₁ N₂) (max N₃ N₄), fun fuel hfuel => ⟨fun hxs => ?_, fun hxs => ?_⟩⟩
  · exact ⟨h₁ fuel (by omega) hxs, h₁ fuel (by omega) hxs, h₂ fuel (by omega) hxs⟩
  · exact ⟨h₃ fuel (by omega) hxs, h₄ fuel (by omega) hxs⟩

end

/-- The integers that terms stand for, compared. -/
def compareInts (x y : Cell ℤ) : ℤ :=
  match x, y with
  | .term a, .term b => a - b
  | .term _, _ => 1
  | _, .term _ => -1
  | _, _ => 0

theorem comparison_compareInts : Comparison compareInts where
  swap x y := by cases x <;> cases y <;> simp [compareInts]
  trans x y z := by
    cases x <;> cases y <;> cases z <;> simp [compareInts]
    omega

/-- `[1,3]`, behind a reference. -/
def heapOneThree : Memory ℤ
  | some 0 => .list 1
  | some 1 => .term 1
  | some 2 => .list 3
  | some 3 => .term 3
  | _ => .nil

theorem insertOrdered_spec_one_three : ∃ N, ∀ fuel, N ≤ fuel →
    Inserts (fun x y => compareInts x y ≤ 0) heapOneThree 5 (.ref 0) (.term 3) [.term 1, .term 3]
        (bInsertOrderedCcf compareInts fuel heapOneThree 5 (.ref 0) (.term 3)) ∧
      Shares heapOneThree 5 fuel (.ref 0) [.term 1, .term 3]
        (bInsertOrderedNoDupCcf compareInts fuel heapOneThree 5 (.ref 0) (.term 3)) := by
  have h : Represents heapOneThree 5 (.ref 0) [.term 1, .term 3] :=
    .ref (by decide) (.list (p := 1) (by decide) (.list (p := 3) (by decide) .nil))
  obtain ⟨N, hrun⟩ := insertOrdered_spec comparison_compareInts h (.term 3)
  refine ⟨N, fun fuel hfuel => ?_⟩
  obtain ⟨hins, -, hshare, -⟩ := (hrun fuel hfuel).1 (by decide)
  exact ⟨hins, hshare ⟨.term 3, by decide, rfl⟩⟩

end Picat.InsertOrdered
