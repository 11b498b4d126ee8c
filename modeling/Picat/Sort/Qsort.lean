import Picat.Lib.Segments
import Picat.Lib.Simulation
import Mathlib.Tactic.Linarith

/-!
# `qsort_int_array` and `qsort_term_array`

Quicksort in place, with a stack of segments instead of recursion.

* `qsortFrom_run` : the array is sorted, no access is outside the array or the stack, and all loops end.
-/

namespace Picat
open Simulation

inductive QsortTrap
  | array
  | stack
  | rounds
  | int
deriving DecidableEq, Repr

/-- `#define MAX_LEVELS 300`. -/
def maxLevels : ℕ := 300

abbrev Qsort (α : Type) := StateT (List α) (Except QsortTrap)

namespace Qsort

variable {α : Type}

/-- `arr[i]`. -/
def arrGet (i : ℤ) : Qsort α α := do
  let arr ← get
  if 0 ≤ i then
    match arr[i.toNat]? with
    | some x => pure x
    | none => throw .array
  else throw .array

/-- `arr[i] = x`. -/
def arrSet (i : ℤ) (x : α) : Qsort α Unit := do
  let arr ← get
  if 0 ≤ i ∧ i < arr.length then set (arr.set i.toNat x) else throw .array

def loop {β γ : Type} (body : β → Qsort α (β ⊕ γ)) (b : β) : Qsort α γ := do
  let arr ← get
  rounds .rounds body (arr.length + 1) b

section
variable (gt le : α → α → Bool) (piv : α)

/-- `while (L < R && arr[R] > piv) R--;` -/
def scanR (L R : ℤ) : Qsort α (ℤ ⊕ ℤ) := do
  if L < R then
    let x ← arrGet R
    if gt x piv then pure (.inl (R - 1)) else pure (.inr R)
  else pure (.inr R)

/-- `while (L < R && arr[L] <= piv) L++;` -/
def scanL (R L : ℤ) : Qsort α (ℤ ⊕ ℤ) := do
  if L < R then
    let x ← arrGet L
    if le x piv then pure (.inl (L + 1)) else pure (.inr L)
  else pure (.inr L)

/-- The loop `while (L < R)`; its result is `R`. -/
def partitionRound (LR : ℤ × ℤ) : Qsort α ((ℤ × ℤ) ⊕ ℤ) := do
  let (L, R) := LR
  if L < R then
    let R ← loop (scanR gt piv L) R
    let x ← arrGet R
    arrSet L x
    let L ← loop (scanL le piv R) (L + 1)
    if L < R then
      let x ← arrGet L
      arrSet R x
      pure (.inl (L, R - 1))
    else pure (.inl (L, R))
  else pure (.inr R)

/-- `while (L >= beg[i] && arr[L] == piv) L--;` with `==` on words. -/
def backRound [DecidableEq α] (b L : ℤ) : Qsort α (ℤ ⊕ ℤ) := do
  if L ≥ b then
    let x ← arrGet L
    if x = piv then pure (.inl (L - 1)) else pure (.inr L)
  else pure (.inr L)

end

section
variable [DecidableEq α] (gt le : α → α → Bool)

/-- A segment is split: the results are `L+1` and `R+1`. -/
def splitSegment (b e : ℤ) : Qsort α (ℤ × ℤ) := do
  let L := b
  let R := e - 1
  let swap := L + (R - L) / 2
  let piv ← arrGet swap
  let x ← arrGet L
  arrSet swap x
  arrSet L piv
  let R ← loop (partitionRound gt le piv) (L, R)
  arrSet R piv
  let L ← loop (backRound piv b) (R - 1)
  pure (L + 1, R + 1)

/-- One round of `while (i >= 0)`. The stack has `(beg[i], end[i])` first. -/
def qsortRound : List (ℤ × ℤ) → Qsort α (List (ℤ × ℤ) ⊕ Unit)
  | [] => pure (.inr ())
  | (b, e) :: rest => do
    if b < e - 1 then
      let (l, r) ← splitSegment gt le b e
      -- `beg[i+1]` and `end[i+1]`
      if rest.length + 1 < maxLevels then
        if e - r > l - b then pure (.inl ((b, l) :: (r, e) :: rest)) else pure (.inl ((r, e) :: (b, l) :: rest))
      else throw .stack
    else pure (.inl rest)

/-- The loop over the stack, from `end[0] = len` on. -/
def qsortFrom (len : ℤ) : Qsort α Unit := do
  let arr ← get
  rounds .rounds (qsortRound gt le) (2 * arr.length + 3) [(0, len)]

end

end Qsort

/-- An `int` that is assigned a `BPLONG`. -/
def toInt (n : ℤ) : ℤ := n.bmod (2 ^ 32)

/-- `qsort_int_array(arr, len)`, whose indices are of type `int`. -/
def qsortIntArray (arr : List ℤ) : Except QsortTrap (List ℤ) := do
  let (_, arr) ← Qsort.qsortFrom (fun x y => x > y) (fun x y => x ≤ y) (toInt arr.length) arr
  pure arr

/-- `qsort_term_array(arr, len)`, whose indices are of type `BPLONG`. -/
def qsortTermArray {α : Type} [DecidableEq α] (bpCompare : α → α → ℤ) (arr : List α) : Except QsortTrap (List α) := do
  let (_, arr) ← Qsort.qsortFrom (fun x y => bpCompare x y > 0) (fun x y => bpCompare x y ≤ 0) arr.length arr
  pure arr

end Picat

namespace Picat.Qsort
open Simulation Segments

variable {α : Type}

/-- `gt` and `le` compare as the total preorder `r`. -/
structure Orders (gt le : α → α → Bool) (r : α → α → Prop) : Prop where
  gt_iff : ∀ x y, gt x y = true ↔ ¬ r x y
  le_iff : ∀ x y, le x y = true ↔ r x y
  total : ∀ x y, r x y ∨ r y x
  trans : ∀ x y z, r x y → r y z → r x z

theorem Orders.of_not {gt le : α → α → Bool} {r : α → α → Prop} (h : Orders gt le r) {x y : α} (hxy : ¬ r x y) : r y x :=
  (h.total x y).resolve_left hxy

section
variable {arr : List α} {i : ℕ} {x : α}

theorem arrGet_run (h : arr[i]? = some x) : arrGet (i : ℤ) arr = .ok (x, arr) := by
  unfold arrGet
  rw [bind_of_ok (a := arr) (t := arr) rfl, if_pos (Int.natCast_nonneg i), Int.toNat_natCast, h]
  rfl

theorem arrSet_run (h : i < arr.length) (x : α) : arrSet (i : ℤ) x arr = .ok ((), arr.set i x) := by
  unfold arrSet
  rw [bind_of_ok (a := arr) (t := arr) rfl, if_pos ⟨Int.natCast_nonneg i, Int.ofNat_lt.2 h⟩, Int.toNat_natCast]
  rfl

theorem loop_run {β γ : Type} (body : β → Qsort α (β ⊕ γ)) (I : β → List α → Prop) (Q : γ → List α → Prop)
    (v : β → ℕ) (hbody : ∀ b s, I b s → (∃ b' s', body b s = .ok (.inl b', s') ∧ I b' s' ∧ v b' < v b) ∨
      ∃ c s', body b s = .ok (.inr c, s') ∧ Q c s') {b : β} (hI : I b arr) (hv : v b ≤ arr.length) :
    ∃ c s', loop body b arr = .ok (c, s') ∧ Q c s' := by
  have hround : ∀ b, Triple (fun _ => False) (I b) (body b)
      fun r s => r.elim (fun b' => I b' s ∧ v b' < v b) fun c => Q c s := by
    intro b
    apply Triple.of_run
    intro s hs
    rcases hbody b s hs with ⟨b', s', hrun, hI', hlt⟩ | ⟨c, s', hrun, hQ⟩
    · exact ⟨_, _, hrun, hI', hlt⟩
    · exact ⟨_, _, hrun, hQ⟩
  have hloop : Triple _ (I b) (rounds QsortTrap.rounds body (arr.length + 1) b) Q :=
    Triple.rounds_variant v hround (arr.length + 1) b (Nat.lt_succ_of_le hv)
  obtain ⟨c, s', hrun, hQ⟩ := hloop.run hI
  exact ⟨c, s', hrun, hQ⟩

end

section
variable {gt le : α → α → Bool} {piv : α} {arr : List α} {l r : ℕ}

/-- A loop that reads `idx 0`, `idx 1` and so on, with the counters `var 0`, `var 1`, as long as the test holds. -/
theorem scan_run (body : ℤ → Qsort α (ℤ ⊕ ℤ)) (test : α → Bool) (var : ℕ → ℤ) (idx : ℕ → ℕ) {n : ℕ}
    (hn : n ≤ arr.length) (hend : body (var n) arr = .ok (.inr (var n), arr))
    (hbody : ∀ m < n, ∃ x, arr[idx m]? = some x ∧
      body (var m) arr = .ok (if test x then .inl (var (m + 1)) else .inr (var m), arr)) :
    ∃ m ≤ n, loop body (var 0) arr = .ok (var m, arr) ∧
      (∀ m' < m, ∀ x, arr[idx m']? = some x → test x = true) ∧ (m < n → ∀ x, arr[idx m]? = some x → test x = false) := by
  have hrounds : ∀ fuel m, m ≤ n → n < m + fuel → (∀ m' < m, ∀ x, arr[idx m']? = some x → test x = true) →
      ∃ k ≤ n, rounds QsortTrap.rounds body fuel (var m) arr = .ok (var k, arr) ∧
        (∀ m' < k, ∀ x, arr[idx m']? = some x → test x = true) ∧
        (k < n → ∀ x, arr[idx k]? = some x → test x = false) := by
    intro fuel
    induction fuel with
    | zero => exact fun m hm hlt => absurd hlt (by omega)
    | succ fuel ih =>
      intro m hm hlt hpassed
      rcases hm.eq_or_lt with rfl | hm'
      · exact ⟨m, hm, rounds_of_inr hend, hpassed, fun h => absurd h (lt_irrefl m)⟩
      obtain ⟨x, hx, hrun⟩ := hbody m hm'
      cases htest : test x with
      | false =>
        rw [htest] at hrun
        exact ⟨m, hm, rounds_of_inr hrun, hpassed, fun _ y hy => Option.some.inj (hx.symm.trans hy) ▸ htest⟩
      | true =>
        rw [htest] at hrun
        rw [rounds_of_inl hrun]
        refine ih (m + 1) hm' (by omega) fun m' hm' y hy => ?_
        rcases Nat.lt_succ_iff_lt_or_eq.1 hm' with h | rfl
        · exact hpassed m' h y hy
        · exact Option.some.inj (hx.symm.trans hy) ▸ htest
  exact hrounds (arr.length + 1) 0 (Nat.zero_le n) (by omega) fun m' hm' => absurd hm' (Nat.not_lt_zero m')

variable (gt piv arr) in
theorem scanR_run (hlr : l ≤ r) (hr : r < arr.length) : ∃ k : ℕ, (l ≤ k ∧ k ≤ r) ∧
    loop (scanR gt piv l) r arr = .ok ((k : ℤ), arr) ∧
    (∀ i x, k < i → i ≤ r → arr[i]? = some x → gt x piv = true) ∧ (l < k → ∀ x, arr[k]? = some x → gt x piv = false) := by
  obtain ⟨m, hm, hrun, hpassed, hstop⟩ := scan_run (scanR gt piv l) (gt · piv) (fun m => ((r - m : ℕ) : ℤ)) (r - ·)
    (show r - l ≤ arr.length by omega) (by rw [scanR, if_neg (by omega)]; rfl) fun m hm => by
      have hx : arr[r - m]? = some arr[r - m] := List.getElem?_eq_getElem (by omega)
      refine ⟨_, hx, ?_⟩
      rw [scanR, if_pos (by omega), bind_of_ok (arrGet_run hx), show ((r - m : ℕ) : ℤ) - 1 = (r - (m + 1) : ℕ) by omega]
      split_ifs <;> rfl
  exact ⟨r - m, by omega, hrun, fun i x h1 h2 hx => hpassed (r - i) (by omega) x (by rwa [Nat.sub_sub_self h2]),
    fun hlt => hstop (by omega)⟩

variable (le piv arr) in
theorem scanL_run (hlr : l ≤ r + 1) (hr : r < arr.length) : ∃ k : ℕ, (l ≤ k ∧ k ≤ max l r) ∧
    loop (scanL le piv r) l arr = .ok ((k : ℤ), arr) ∧
    (∀ i x, l ≤ i → i < k → arr[i]? = some x → le x piv = true) ∧ (k < r → ∀ x, arr[k]? = some x → le x piv = false) := by
  obtain ⟨m, hm, hrun, hpassed, hstop⟩ := scan_run (scanL le piv r) (le · piv) (fun m => ((l + m : ℕ) : ℤ)) (l + ·)
    (show r - l ≤ arr.length by omega) (by rw [scanL, if_neg (by omega)]; rfl) fun m hm => by
      have hx : arr[l + m]? = some arr[l + m] := List.getElem?_eq_getElem (by omega)
      refine ⟨_, hx, ?_⟩
      rw [scanL, if_pos (by omega), bind_of_ok (arrGet_run hx)]
      split_ifs <;> rfl
  exact ⟨l + m, by omega, hrun, fun i x h1 h2 hx => hpassed (i - l) (by omega) x (by rwa [Nat.add_sub_cancel' h1]),
    fun hlt => hstop (by omega)⟩

variable (piv arr) in
theorem back_run [DecidableEq α] {b : ℕ} (hbr : b ≤ r) (hr : r ≤ arr.length) : ∃ k : ℕ, (b ≤ k ∧ k ≤ r) ∧
    loop (backRound piv b) ((r : ℤ) - 1) arr = .ok ((k : ℤ) - 1, arr) ∧
    ∀ i x, k ≤ i → i < r → arr[i]? = some x → x = piv := by
  obtain ⟨m, hm, hrun, hpassed, -⟩ := scan_run (backRound piv b) (decide <| · = piv) (fun m => ((r - m : ℕ) : ℤ) - 1)
    (r - 1 - ·) (show r - b ≤ arr.length by omega) (by rw [backRound, if_neg (by omega)]; rfl) fun m hm => by
      have hx : arr[r - 1 - m]? = some arr[r - 1 - m] := List.getElem?_eq_getElem (by omega)
      refine ⟨_, hx, ?_⟩
      rw [backRound, if_pos (by omega), show ((r - m : ℕ) : ℤ) - 1 = (r - 1 - m : ℕ) by omega, bind_of_ok (arrGet_run hx)]
      simp only [decide_eq_true_eq, Nat.sub_add_eq, Nat.sub_right_comm r m 1]
      split_ifs <;> rfl
  refine ⟨r - m, by omega, hrun, fun i x h1 h2 hx => of_decide_eq_true (hpassed (r - 1 - i) (by omega) x ?_)⟩
  rwa [Nat.sub_sub_self (by omega)]

end

/-! ## The split of a segment -/

section
variable {gt le : α → α → Bool} {r : α → α → Prop} {piv : α} {arr0 arr : List α} {b e : ℕ}

variable (r piv arr0 b e) in
/-- The segment while it is split: the pivot is missing at `h`, and what stands before `L` or behind `R` is on its side. -/
structure Hole (h L R : ℕ) (arr : List α) : Prop where
  inside : b ≤ h ∧ h < e
  left : b ≤ L ∧ L ≤ R + 1
  right : b ≤ R ∧ R < e
  rearranged : Rearranged b e arr0 (arr.set h piv)
  low : ∀ i x, b ≤ i → i < L → i ≠ h → arr[i]? = some x → r x piv
  high : ∀ i x, R < i → i < e → i ≠ h → arr[i]? = some x → r piv x

theorem Hole.length_eq {h L R : ℕ} (H : Hole r piv arr0 b e h L R arr) : arr.length = arr0.length := by
  rw [← H.rearranged.length_eq, List.length_set]

theorem Hole.fillLeft {L R k : ℕ} {x : α} (H : Hole r piv arr0 b e L L R arr)
    (hk : L ≤ k ∧ k ≤ R) (hx : arr[k]? = some x) (hpassed : ∀ i x, k < i → i ≤ R → arr[i]? = some x → r piv x)
    (hstop : L < k → r x piv) : Hole r piv arr0 b e k (L + 1) k (arr.set L x) := by
  have hleft := H.left
  have hkin : b ≤ k ∧ k < e := ⟨hleft.1.trans hk.1, hk.2.trans_lt H.right.2⟩
  obtain ⟨hka, rfl⟩ := List.getElem?_eq_some_iff.1 hx
  refine ⟨hkin, ⟨by omega, by omega⟩, hkin, H.rearranged.move H.inside hkin (by omega) hka, ?_, ?_⟩
  · intro i y h1 h2 hne hy
    rcases Nat.eq_or_lt_of_le (Nat.le_of_lt_succ h2) with rfl | hlt
    · rw [List.getElem?_set_self (by omega)] at hy
      cases hy
      exact hstop (by omega)
    · rw [List.getElem?_set_ne (by omega)] at hy
      exact H.low i y h1 hlt (by omega) hy
  · intro i y h1 h2 hne hy
    rw [List.getElem?_set_ne (by omega)] at hy
    by_cases hiR : i ≤ R
    · exact hpassed i y h1 hiR hy
    · exact H.high i y (by omega) h2 (by omega) hy

theorem Hole.scanned {L R k : ℕ} (H : Hole r piv arr0 b e R L R arr) (hk : L ≤ k ∧ k ≤ R + 1)
    (hpassed : ∀ i x, L ≤ i → i < k → arr[i]? = some x → r x piv) : Hole r piv arr0 b e R k R arr := by
  refine ⟨H.inside, ⟨H.left.1.trans hk.1, hk.2⟩, H.right, H.rearranged, fun i x h1 h2 hne hx => ?_, H.high⟩
  by_cases hL : i < L
  · exact H.low i x h1 hL hne hx
  · exact hpassed i x (by omega) h2 hx

theorem Hole.fillRight {L R : ℕ} {x : α} (H : Hole r piv arr0 b e R L R arr) (he : e ≤ arr.length) (hLR : L < R)
    (hx : arr[L]? = some x) (hstop : r piv x) : Hole r piv arr0 b e L L (R - 1) (arr.set R x) := by
  have hright := H.right
  have hLin : b ≤ L ∧ L < e := ⟨H.left.1, hLR.trans hright.2⟩
  obtain ⟨hLa, rfl⟩ := List.getElem?_eq_some_iff.1 hx
  refine ⟨hLin, ⟨hLin.1, by omega⟩, ⟨by omega, by omega⟩, H.rearranged.move H.inside hLin (by omega) hLa, ?_, ?_⟩
  · intro i y h1 h2 hne hy
    rw [List.getElem?_set_ne (by omega)] at hy
    exact H.low i y h1 h2 (by omega) hy
  · intro i y h1 h2 hne hy
    by_cases hiR : R = i
    · subst hiR
      rw [List.getElem?_set_self (by omega)] at hy
      cases hy
      exact hstop
    · rw [List.getElem?_set_ne hiR] at hy
      exact H.high i y (by omega) h2 (by omega) hy

section
variable (O : Orders gt le r) {L R : ℕ} (H : Hole r piv arr0 b e L L R arr) (he : e ≤ arr.length)
include O H he

theorem partitionRound_run (hLR : L < R) :
    ∃ (h L' R' : ℕ) (arr' : List α), partitionRound gt le piv ((L : ℤ), (R : ℤ)) arr = .ok (.inl ((L' : ℤ), (R' : ℤ)), arr') ∧
      Hole r piv arr0 b e h L' R' arr' ∧ (h = L' ∧ L' ≤ R' ∨ h = R' ∧ R' ≤ L') ∧ L < L' ∧ R' ≤ R := by
  have hright := H.right
  obtain ⟨k, hk, hscan, hpassed, hstop⟩ := scanR_run gt piv arr hLR.le (H.right.2.trans_le he)
  obtain ⟨x, hx⟩ : ∃ x, arr[k]? = some x := ⟨_, List.getElem?_eq_getElem (by omega)⟩
  have H1 := H.fillLeft hk hx (fun i y h1 h2 hy => O.of_not ((O.gt_iff y piv).1 (hpassed i y h1 h2 hy)))
    fun hlt => by_contra fun hnot => Bool.false_ne_true ((hstop hlt x hx).symm.trans ((O.gt_iff x piv).2 hnot))
  have he1 : e ≤ (arr.set L x).length := by rwa [List.length_set]
  obtain ⟨m, hm, hscan', hpassed', hstop'⟩ :=
    scanL_run le piv (arr.set L x) (l := L + 1) (r := k) (by omega) (by omega)
  have H2 := H1.scanned (k := m) ⟨hm.1, by omega⟩ fun i y h1 h2 hy => (O.le_iff y piv).1 (hpassed' i y h1 h2 hy)
  have hcast : ((L : ℤ) + 1) = ((L + 1 : ℕ) : ℤ) := by omega
  rw [partitionRound]
  rw [if_pos (Int.ofNat_lt.2 hLR), bind_of_ok hscan, bind_of_ok (arrGet_run hx), bind_of_ok (arrSet_run (by omega) x),
    hcast, bind_of_ok hscan']
  by_cases hmk : m < k
  · obtain ⟨y, hy⟩ : ∃ y, (arr.set L x)[m]? = some y := ⟨_, List.getElem?_eq_getElem (by omega)⟩
    rw [if_pos (Int.ofNat_lt.2 hmk), bind_of_ok (arrGet_run hy), bind_of_ok (arrSet_run (by omega) y)]
    have H3 := H2.fillRight he1 hmk hy
      (O.of_not fun hle => Bool.false_ne_true ((hstop' hmk y hy).symm.trans ((O.le_iff y piv).2 hle)))
    refine ⟨m, m, k - 1, _, ?_, H3, .inl ⟨rfl, by omega⟩, by omega, by omega⟩
    rw [show ((k - 1 : ℕ) : ℤ) = k - 1 by omega]
    rfl
  · rw [if_neg (by omega)]
    exact ⟨k, m, k, _, rfl, H2, .inr ⟨rfl, by omega⟩, by omega, hk.2⟩

theorem partition_run (hLR : L ≤ R) :
    ∃ (k m : ℕ) (arr' : List α), loop (partitionRound gt le piv) ((L : ℤ), (R : ℤ)) arr = .ok ((k : ℤ), arr') ∧
      Hole r piv arr0 b e k m k arr' ∧ k ≤ m := by
  have hloop := loop_run (partitionRound gt le piv)
    (fun LR s => ∃ h L R : ℕ, LR = ((L : ℤ), (R : ℤ)) ∧ Hole r piv arr0 b e h L R s ∧ (h = L ∧ L ≤ R ∨ h = R ∧ R ≤ L))
    (fun K s => ∃ k m : ℕ, K = k ∧ Hole r piv arr0 b e k m k s ∧ k ≤ m)
    (fun LR => (LR.2 + 1 - LR.1).toNat) ?_ ⟨L, L, R, rfl, H, .inl ⟨rfl, hLR⟩⟩ ?_
  · obtain ⟨_, arr', hrun, k, m, rfl, H', hkm⟩ := hloop
    exact ⟨k, m, arr', hrun, H', hkm⟩
  · rintro _ s ⟨h, L', R', rfl, H', hends⟩
    have he' : e ≤ s.length := by rwa [H'.length_eq, ← H.length_eq]
    by_cases hlt : L' < R'
    · obtain rfl : h = L' := by omega
      obtain ⟨h', L1, R1, s', hrun, H1, hends1, hL, hR⟩ := partitionRound_run O H' he' hlt
      exact .inl ⟨_, s', hrun, ⟨h', L1, R1, rfl, H1, hends1⟩, by simp only; omega⟩
    · obtain rfl : h = R' := by omega
      refine .inr ⟨(h : ℤ), s, ?_, h, L', rfl, H', by omega⟩
      rw [partitionRound]
      rw [if_neg (by omega)]
      rfl
  · have hR := H.right
    simp only
    omega

end

theorem splitSegment_run [DecidableEq α] (O : Orders gt le r) (hbe : b + 1 < e) (he : e ≤ arr.length) :
    ∃ (l k : ℕ) (p : α) (arr' : List α), splitSegment gt le b e arr = .ok (((l : ℤ), (k : ℤ)), arr') ∧
      (b ≤ l ∧ l < k ∧ k ≤ e) ∧ Rearranged b e arr arr' ∧
      (∀ i x, b ≤ i → i < k → arr'[i]? = some x → r x p) ∧ ∀ i x, l ≤ i → i < e → arr'[i]? = some x → r p x := by
  have hrefl : ∀ x, r x x := fun x => (O.total x x).elim id id
  obtain ⟨c, hc⟩ : ∃ c : ℕ, c = b + (e - 1 - b) / 2 := ⟨_, rfl⟩
  have hswap : (b : ℤ) + ((e : ℤ) - 1 - b) / 2 = c := by omega
  have hcin : b ≤ c ∧ c < e := by omega
  obtain ⟨piv, hpiv⟩ : ∃ x, arr[c]? = some x := ⟨_, List.getElem?_eq_getElem (by omega)⟩
  obtain ⟨x, hx⟩ : ∃ x, arr[b]? = some x := ⟨_, List.getElem?_eq_getElem (by omega)⟩
  have H : Hole r piv arr b e b b (e - 1) ((arr.set c x).set b piv) := by
    refine ⟨⟨Nat.le_refl b, by omega⟩, ⟨Nat.le_refl b, by omega⟩, ⟨by omega, by omega⟩, ?_, ?_, ?_⟩
    · obtain ⟨hca, rfl⟩ := List.getElem?_eq_some_iff.1 hpiv
      obtain ⟨hba, rfl⟩ := List.getElem?_eq_some_iff.1 hx
      rw [List.set_set]
      exact .swap hcin ⟨Nat.le_refl b, by omega⟩ hca hba
    · exact fun i y h1 h2 => absurd h1 (by omega)
    · exact fun i y h1 h2 => absurd h1 (by omega)
  have hlen : e ≤ ((arr.set c x).set b piv).length := by rwa [List.length_set, List.length_set]
  obtain ⟨k, m, s, hpart, H', hkm⟩ := partition_run O H hlen (by omega)
  have hlen' : s.length = arr.length := H'.length_eq
  have hk := H'.inside
  obtain ⟨l, hl, hback, hpassed⟩ := back_run piv (s.set k piv) hk.1 (by rw [List.length_set]; omega)
  have hself : (s.set k piv)[k]? = some piv := List.getElem?_set_self (by omega)
  refine ⟨l, k + 1, piv, s.set k piv, ?_, by omega, H'.rearranged, fun i y h1 h2 hy => ?_, fun i y h1 h2 hy => ?_⟩
  · rw [splitSegment]
    rw [hswap, bind_of_ok (arrGet_run hpiv), bind_of_ok (arrGet_run hx), bind_of_ok (arrSet_run (by omega) x),
      bind_of_ok (arrSet_run (by rw [List.length_set]; omega) piv), show (e : ℤ) - 1 = ((e - 1 : ℕ) : ℤ) by omega,
      bind_of_ok hpart, bind_of_ok (arrSet_run (by omega) piv), bind_of_ok hback, Int.sub_add_cancel]
    rfl
  · by_cases hik : i = k
    · subst hik
      rw [hself] at hy
      cases hy
      exact hrefl _
    · rw [List.getElem?_set_ne (Ne.symm hik)] at hy
      exact H'.low i y h1 (by omega) hik hy
  · by_cases hik : i < k
    · rw [hpassed i y h1 hik hy]
      exact hrefl _
    · by_cases heq : i = k
      · subst heq
        rw [hself] at hy
        cases hy
        exact hrefl _
      · rw [List.getElem?_set_ne (Ne.symm heq)] at hy
        exact H'.high i y (by omega) h2 heq hy

end

/-! ## The loop over the stack -/

section
variable {gt le : α → α → Bool} {r : α → α → Prop} {arr0 arr : List α} {segs : List (ℕ × ℕ)}

def spans (segs : List (ℕ × ℕ)) : List (ℤ × ℤ) := segs.map fun s => ((s.1 : ℤ), (s.2 : ℤ))

variable (r arr0 segs arr) in
structure StackInv : Prop where
  perm : arr.Perm arr0
  sorted : SortedUpTo r segs arr
  apart : segs.Pairwise Apart
  inside : ∀ s ∈ segs, s.2 ≤ arr0.length
  halves : Halves arr0.length segs

/-- Each round takes a segment off or puts a smaller one in its place, at most as often as this says. -/
def weight (segs : List (ℤ × ℤ)) : ℕ := (segs.map fun s => 2 * (s.2 - s.1).toNat + 1).sum

theorem weight_cons (s : ℤ × ℤ) (segs : List (ℤ × ℤ)) :
    weight (s :: segs) = 2 * (s.2 - s.1).toNat + 1 + weight segs := by
  rw [weight, List.map_cons, List.sum_cons, weight]

theorem StackInv.pop {b e : ℕ} (S : StackInv r arr0 arr ((b, e) :: segs)) (hbe : e ≤ b + 1) : StackInv r arr0 arr segs :=
  ⟨S.perm, S.sorted.pop hbe, (List.pairwise_cons.1 S.apart).2, fun s hs => S.inside s (List.mem_cons_of_mem _ hs),
    S.halves.2⟩

theorem StackInv.push {b e : ℕ} {arr' : List α} {s t : ℕ × ℕ} (S : StackInv r arr0 arr ((b, e) :: segs))
    (hperm : arr'.Perm arr) (hsorted : SortedUpTo r (s :: t :: segs) arr') (hst : Apart s t)
    (hs : b ≤ s.1 ∧ s.2 ≤ e) (ht : b ≤ t.1 ∧ t.2 ≤ e) (hsum : size s + size t ≤ e - b) (hle : size s ≤ size t) :
    StackInv r arr0 arr' (s :: t :: segs) := by
  obtain ⟨hapart, hrest⟩ := List.pairwise_cons.1 S.apart
  have he := S.inside (b, e) List.mem_cons_self
  refine ⟨hperm.trans S.perm, hsorted, ?_, ?_, S.halves.push hsum hle⟩
  · apply List.Pairwise.cons
    · intro u hu
      rcases List.mem_cons.1 hu with rfl | hu
      · exact hst
      · exact (hapart u hu).mono hs.1 hs.2
    · exact .cons (fun u hu => (hapart u hu).mono ht.1 ht.2) hrest
  · intro u hu
    rcases List.mem_cons.1 hu with rfl | hu
    · exact hs.2.trans he
    · rcases List.mem_cons.1 hu with rfl | hu
      · exact ht.2.trans he
      · exact S.inside u (List.mem_cons_of_mem _ hu)

variable [DecidableEq α]

theorem qsortRound_split {b e l k : ℤ} {stack : List (ℤ × ℤ)} {arr' : List α} (hbe : b < e - 1)
    (hrun : splitSegment gt le b e arr = .ok ((l, k), arr')) (hdepth : stack.length + 1 < maxLevels) :
    qsortRound gt le ((b, e) :: stack) arr =
      .ok (.inl (if e - k > l - b then (b, l) :: (k, e) :: stack else (k, e) :: (b, l) :: stack), arr') := by
  rw [qsortRound, if_pos hbe, bind_of_ok hrun]
  show (if stack.length + 1 < maxLevels then _ else _ : Qsort α _) arr' = _
  rw [if_pos hdepth]
  split_ifs with hsize <;> rfl

theorem qsortRound_run (O : Orders gt le r) (hlen : arr0.length < 2 ^ maxLevels) {s : ℕ × ℕ}
    (S : StackInv r arr0 arr (s :: segs)) : ∃ segs' arr',
      qsortRound gt le (spans (s :: segs)) arr = .ok (.inl (spans segs'), arr') ∧ StackInv r arr0 arr' segs' ∧
      weight (spans segs') < weight (spans (s :: segs)) := by
  obtain ⟨b, e⟩ := s
  have he : e ≤ arr.length := by
    rw [S.perm.length_eq]
    exact S.inside (b, e) List.mem_cons_self
  rw [spans, List.map_cons, ← spans]
  by_cases hbe : b + 1 < e
  · obtain ⟨l, k, p, arr', hrun, hlk, hr, hlow, hhigh⟩ := splitSegment_run O hbe he
    have hsorted := S.sorted.split (List.pairwise_cons.1 S.apart).1 hr O.trans hlow hhigh
    have hdepth : segs.length + 1 < maxLevels := S.halves.depth (show 2 ≤ e - b by omega) hlen
    rw [qsortRound_split (by omega) hrun (by rwa [spans, List.length_map])]
    by_cases hsize : (e : ℤ) - k > l - b
    · refine ⟨(b, l) :: (k, e) :: segs, arr', by rw [if_pos (by exact hsize)]; rfl, ?_, ?_⟩
      · exact S.push hr.perm hsorted (.inl (Nat.le_of_lt hlk.2.1)) ⟨Nat.le_refl b, by omega⟩ ⟨by omega, Nat.le_refl e⟩
          (show l - b + (e - k) ≤ e - b by omega) (show l - b ≤ e - k by omega)
      · rw [spans, List.map_cons, List.map_cons, ← spans, weight_cons, weight_cons, weight_cons]
        simp only
        omega
    · refine ⟨(k, e) :: (b, l) :: segs, arr', by rw [if_neg (by exact hsize)]; rfl, ?_, ?_⟩
      · have hswap : SortedUpTo r ((k, e) :: (b, l) :: segs) arr' :=
          hsorted.mono fun s hs => (List.Perm.swap (k, e) (b, l) segs).mem_iff.1 hs
        exact S.push hr.perm hswap (.inr (Nat.le_of_lt hlk.2.1)) ⟨by omega, Nat.le_refl e⟩ ⟨Nat.le_refl b, by omega⟩
          (show e - k + (l - b) ≤ e - b by omega) (show e - k ≤ l - b by omega)
      · rw [spans, List.map_cons, List.map_cons, ← spans, weight_cons, weight_cons, weight_cons]
        simp only
        omega
  · rw [qsortRound, if_neg (by simp only; omega)]
    refine ⟨segs, arr, rfl, S.pop (by omega), ?_⟩
    rw [weight_cons]
    omega

/-- The array is sorted: no access is outside the array or the stack, and all loops end. -/
theorem qsortFrom_run (O : Orders gt le r) (hlen : arr.length < 2 ^ maxLevels) :
    ∃ arr', qsortFrom gt le arr.length arr = .ok ((), arr') ∧ arr'.Perm arr ∧ arr'.Pairwise r := by
  have hround : ∀ stack, Triple (fun _ => False) (fun s => ∃ segs, stack = spans segs ∧ StackInv r arr s segs)
      (qsortRound gt le stack) fun next s => next.elim
        (fun stack' => (∃ segs, stack' = spans segs ∧ StackInv r arr s segs) ∧ weight stack' < weight stack)
        fun _ => StackInv r arr s [] := by
    intro stack
    apply Triple.of_run
    rintro s ⟨segs, rfl, S⟩
    cases segs with
    | nil => exact ⟨_, s, rfl, S⟩
    | cons seg segs =>
      obtain ⟨segs', s', hrun, S', hlt⟩ := qsortRound_run O hlen S
      exact ⟨_, s', hrun, ⟨segs', rfl, S'⟩, hlt⟩
  have hinit : StackInv r arr arr [(0, arr.length)] := by
    refine ⟨.refl _, .whole r arr, List.pairwise_singleton _ _, fun s hs => ?_, .whole _⟩
    rw [List.mem_singleton.1 hs]
  have hweight : weight [(0, (arr.length : ℤ))] < 2 * arr.length + 3 := by
    rw [weight_cons, weight, List.map_nil, List.sum_nil]
    simp only
    omega
  have hloop : Triple _ _ (rounds QsortTrap.rounds (qsortRound gt le) (2 * arr.length + 3) [(0, (arr.length : ℤ))]) _ :=
    Triple.rounds_variant weight hround _ _ hweight
  obtain ⟨⟨⟩, arr', hrun, S⟩ := hloop.run ⟨_, rfl, hinit⟩
  exact ⟨arr', hrun, S.perm, S.sorted.pairwise⟩

end

end Picat.Qsort
