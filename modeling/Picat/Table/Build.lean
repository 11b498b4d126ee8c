import Mathlib.Data.List.Sigma
import Picat.Bigint.Term
import Picat.Domain.Words

/-!
# The tries of a positive table constraint

`b_CFD_BUILD_TRIES_IN` of `cfd.c`: for each pair of positions `i`, `j` of the tuples and each value `k` at `i`, the
domain of the values at `j` of the tuples with `k` at `i`.

* `computeSupportsIn` : the second pass, which adds each tuple to the bit vectors.

The arrays are taken from the stack, with what is there (`garbage`); an access outside of an array, a tuple or
a trie is `Stop.oob`.
-/

namespace Picat

/-! ## Cells -/

/-- `FOLLOW(a+x)`. -/
def readCell {α : Type} (a : List α) (x : ℤ) : Except Stop α :=
  if x < 0 then .error .oob
  else
    match a[x.toNat]? with
    | none => .error .oob
    | some v => .ok v

/-- `FOLLOW(a+x) = v`. -/
def writeCell {α : Type} (a : List α) (x : ℤ) (v : α) : Except Stop (List α) :=
  if 0 ≤ x ∧ x < a.length then .ok (a.set x.toNat v) else .error .oob

/-- The index of `A3_GET`. -/
def a3Index (i j : ℕ) (k : ℤ) (nj nk : ℕ) : ℤ := (i * nj + j) * nk + k

/-- `A3_GET`, read. -/
def a3Get (a : List ℤ) (i j : ℕ) (k : ℤ) (nj nk : ℕ) : Except Stop ℤ := readCell a (a3Index i j k nj nk)

/-- `A3_GET`, assigned to. -/
def a3Set (a : List ℤ) (i j : ℕ) (k : ℤ) (nj nk : ℕ) (v : ℤ) : Except Stop (List ℤ) :=
  writeCell a (a3Index i j k nj nk) v

/-- A cell of a trie: a free variable while there is no support, an integer, or a domain variable. -/
inductive Support where
  | absent
  | int (v : ℤ)
  | var (d : Dvar)
  deriving DecidableEq, Repr

/-- `A2Tries`: the trie `Tij` at `i` and `j`. -/
abbrev Tries : Type := ℕ → ℕ → List Support

/-- The trie at `i` and `j` after an update in place. -/
def setTrie (tries : Tries) (i j : ℕ) (trie : List Support) : Tries := fun i' j' =>
  if i' = i ∧ j' = j then trie else tries i' j'

/-! ## Support variables -/

def newBvDomainVar (from' to' first last size : ℤ) (bvWord : BitVec 64) : Dvar :=
  { var := .susp
    type := .bv
      { low := wordNumber from' * 64
        up := (wordNumber to' + 1) * 64 - 1
        words := List.replicate (wordNumber to' - wordNumber from' + 1).toNat bvWord }
    first := first, last := last, size := size, outerDomCs := false }

def newItDomainVar (first last : ℤ) : Dvar :=
  { var := .susp, type := .it, first := first, last := last, size := last - first + 1, outerDomCs := false }

/-- The end of `domain_set_true_bv`: the new element and the bounds. -/
def extendBounds (d : Dvar) (elm : ℤ) : Dvar :=
  { d with
    first := if elm < d.first then elm else d.first
    last := if elm > d.last then elm else d.last
    size := d.size + 1 }

def domainSetTrueBv (d : Dvar) (elm : ℤ) : Except Stop Dvar := do
  let b ← d.bvPtr
  let (w, wPtr, offset) ← wordOffset b elm
  if w &&& 1#64 <<< offset ≠ 0 then
    return d
  else
    let words ← storeWord b.words wPtr (w ||| 1#64 <<< offset)
    return extendBounds { d with type := .bv { b with words := words } } elm

/-! ## The least and the greatest supports -/

/-- The pairs of the loops `i in 0..n-2`, `j in i+1..n-1`. -/
def upperPairs (n : ℕ) : List (Σ _ : ℕ, ℕ) := (List.range (n - 1)).sigma fun i => List.range' (i + 1) (n - (i + 1))

/-- The pairs of the loops `i in 0..n-1`, `j in 0..n-1`, without `i == j`. -/
def otherPairs (n : ℕ) : List (Σ _ : ℕ, ℕ) :=
  (List.range n).sigma fun i => (List.range n).filter fun j => i ≠ j

/-- One round of `initialize_min_max_arrays`. -/
def initializeMinMax (n nk : ℕ) (i j : ℕ) (arrays : List ℤ × List ℤ) (k : ℕ) : Except Stop (List ℤ × List ℤ) := do
  let minArray ← a3Set arrays.1 i j k n nk bpMaxint1W
  let maxArray ← a3Set arrays.2 i j k n nk bpMinint1W
  let minArray ← a3Set minArray j i k n nk bpMaxint1W
  let maxArray ← a3Set maxArray j i k n nk bpMinint1W
  return (minArray, maxArray)

def initializeMinMaxArrays (n nk : ℕ) (arrays : List ℤ × List ℤ) : Except Stop (List ℤ × List ℤ) :=
  (upperPairs n).foldlM (fun arrays p => (List.range nk).foldlM (initializeMinMax n nk p.1 p.2) arrays) arrays

def reuseStack (n : ℕ) (tuple : List ℤ) : Except Stop (List ℤ) :=
  if n ≤ tuple.length then .ok (tuple.take n) else .error .oob

/-- `if (v < A3_GET(MinArray,i,j,k,n,nk)) A3_GET(MinArray,i,j,k,n,nk) = v`. -/
def lowerMin (minArray : List ℤ) (i j : ℕ) (k : ℤ) (n nk : ℕ) (v : ℤ) : Except Stop (List ℤ) := do
  let min ← a3Get minArray i j k n nk
  if v < min then a3Set minArray i j k n nk v else return minArray

/-- `if (v > A3_GET(MaxArray,i,j,k,n,nk)) A3_GET(MaxArray,i,j,k,n,nk) = v`. -/
def raiseMax (maxArray : List ℤ) (i j : ℕ) (k : ℤ) (n nk : ℕ) (v : ℤ) : Except Stop (List ℤ) := do
  let max ← a3Get maxArray i j k n nk
  if v > max then a3Set maxArray i j k n nk v else return maxArray

/-- One round of the inner loops of `compute_mins_maxs_in`. -/
def computeMinMax (n nk : ℕ) (stack : List ℤ) (arrays : List ℤ × List ℤ) (p : Σ _ : ℕ, ℕ) :
    Except Stop (List ℤ × List ℤ) := do
  let ai ← readCell stack p.1
  let aj ← readCell stack p.2
  let minArray ← lowerMin arrays.1 p.1 p.2 ai n nk aj
  let maxArray ← raiseMax arrays.2 p.1 p.2 ai n nk aj
  let minArray ← lowerMin minArray p.2 p.1 aj n nk ai
  let maxArray ← raiseMax maxArray p.2 p.1 aj n nk ai
  return (minArray, maxArray)

def computeMinsMaxsIn (n nk : ℕ) (tuples : List (List ℤ)) (arrays : List ℤ × List ℤ) : Except Stop (List ℤ × List ℤ) :=
  tuples.foldlM (fun arrays tuple => do
    let stack ← reuseStack n tuple
    (upperPairs n).foldlM (computeMinMax n nk stack) arrays) arrays

/-! ## The supports -/

/-- The new content of a cell; it stays free when `k` does not occur in column `i`. -/
def newSupport (cell : Support) (min max : ℤ) : Support :=
  if min > max then cell
  else if min = max then .int min
  else if min + 1 = max then .var (newItDomainVar min max)
  else .var (newBvDomainVar min max max min 0 0)

/-- One round of `initialize_supports`, for the position `i`, the value `k` and the position `j`. -/
def initializeSupport (n nk : ℕ) (arrays : List ℤ × List ℤ) (tries : Tries) (p : Σ _ : ℕ, Σ _ : ℕ, ℕ) :
    Except Stop Tries := do
  let i := p.1
  let k := p.2.1
  let j := p.2.2
  let min ← a3Get arrays.1 i j k n nk
  let max ← a3Get arrays.2 i j k n nk
  let cell ← readCell (tries i j) k
  let trie ← writeCell (tries i j) k (newSupport cell min max)
  return setTrie tries i j trie

def initializeSupports (n nk : ℕ) (maxs : List ℤ) (arrays : List ℤ × List ℤ) (tries : Tries) : Except Stop Tries :=
  ((List.range n).sigma fun i => (List.range (maxs.getD i (-1) + 1).toNat).sigma fun _ =>
    (List.range n).filter fun j => i ≠ j).foldlM (initializeSupport n nk arrays) tries

/-- The end of the inner loop of `compute_supports_in`: `aj` supports `ai`. -/
def addSupport (cell : Support) (aj : ℤ) : Except Stop Support :=
  match cell with
  | .var d => if d.type = .it then .ok cell else do
    let d ← domainSetTrueBv d aj
    return .var d
  | _ => .ok cell

/-- One round of the inner loops of `compute_supports_in`. -/
def computeSupport (stack : List ℤ) (tries : Tries) (p : Σ _ : ℕ, ℕ) : Except Stop Tries := do
  let ai ← readCell stack p.1
  let aj ← readCell stack p.2
  let cell ← readCell (tries p.1 p.2) ai
  let cell ← addSupport cell aj
  let trie ← writeCell (tries p.1 p.2) ai cell
  return setTrie tries p.1 p.2 trie

def computeSupportsIn (n : ℕ) (tuples : List (List ℤ)) (tries : Tries) : Except Stop Tries :=
  tuples.foldlM (fun tries tuple => do
    let stack ← reuseStack n tuple
    (otherPairs n).foldlM (computeSupport stack) tries) tries

/-- `nk`: one more than the largest value in any domain. -/
def largestValue (maxs : List ℤ) : ℕ := (maxs.foldl max 0 + 1).toNat

def bCfdBuildTriesIn (garbage : ℕ → ℤ) (maxs : List ℤ) (tuples : List (List ℤ)) (tries : Tries) : Except Stop Tries := do
  let n := maxs.length
  let nk := largestValue maxs
  let arraySize := n * n * nk
  let minArray := (List.range arraySize).map garbage
  let maxArray := (List.range arraySize).map fun x => garbage (arraySize + x)
  let arrays ← initializeMinMaxArrays n nk (minArray, maxArray)
  let arrays ← computeMinsMaxsIn n nk tuples arrays
  let tries ← initializeSupports n nk maxs arrays tries
  computeSupportsIn n tuples tries

/-- The tries that the caller passes: each `Tij` has a free cell for each value up to the maximum at `i`. -/
def freshTries (maxs : List ℤ) : Tries := fun i _ => List.replicate (maxs.getD i (-1) + 1).toNat .absent

end Picat

/-! # The tries record exactly the supports -/

namespace Picat

open BitScan List

/-! ## Supports -/

/-- The values at `j` of the tuples that have `k` at `i`. -/
def supports (tuples : List (List ℤ)) (i j : ℕ) (k : ℤ) : Finset ℤ :=
  ((tuples.filter fun t => t.getD i 0 = k).map fun t => t.getD j 0).toFinset

theorem mem_supports {tuples : List (List ℤ)} {i j : ℕ} {k v : ℤ} :
    v ∈ supports tuples i j k ↔ ∃ t ∈ tuples, t.getD i 0 = k ∧ t.getD j 0 = v := by
  simp only [supports, mem_toFinset, mem_map, mem_filter, decide_eq_true_eq, and_assoc]

theorem supports_nil (i j : ℕ) (k : ℤ) : supports [] i j k = ∅ := rfl

theorem supports_append (tuples : List (List ℤ)) (t : List ℤ) (i j : ℕ) (k : ℤ) : supports (tuples ++ [t]) i j k =
      if t.getD i 0 = k then insert (t.getD j 0) (supports tuples i j k) else supports tuples i j k := by
  ext v
  split_ifs with hk
  · simp only [mem_supports, Finset.mem_insert, mem_append, mem_singleton]
    constructor
    · intro h
      obtain ⟨t', ht | rfl, hi, hj⟩ := h
      · exact .inr ⟨t', ht, hi, hj⟩
      · exact .inl hj.symm
    · rintro (rfl | ⟨t', ht, hi, hj⟩)
      · exact ⟨t, .inr rfl, hk, rfl⟩
      · exact ⟨t', .inl ht, hi, hj⟩
  · simp only [mem_supports, mem_append, mem_singleton]
    constructor
    · intro h
      obtain ⟨t', ht | rfl, hi, hj⟩ := h
      · exact ⟨t', ht, hi, hj⟩
      · exact absurd hi hk
    · intro h
      obtain ⟨t', ht, hi, hj⟩ := h
      exact ⟨t', .inl ht, hi, hj⟩

/-- The tuples of a constraint after they have been normalized: no argument is missing, none is negative or above the
maximum of its column. -/
structure TuplesOk (maxs : List ℤ) (tuples : List (List ℤ)) : Prop where
  length_le : ∀ t ∈ tuples, maxs.length ≤ t.length
  nonneg : ∀ t ∈ tuples, ∀ i < maxs.length, 0 ≤ t.getD i 0
  le_max : ∀ t ∈ tuples, ∀ i < maxs.length, t.getD i 0 ≤ maxs.getD i (-1)
  word : ∀ e ∈ maxs, e ≤ bpMaxint1W

/-! ## Cells and flat arrays -/

section
variable {α : Type} {a : List α} {x y : ℤ} {v w : α}

theorem readCell_eq (hx : 0 ≤ x) (hlt : x < a.length) (d : α) : readCell a x = .ok (a.getD x.toNat d) := by
  have hlt' : x.toNat < a.length := by omega
  simp only [readCell, if_neg (not_lt.2 hx), List.getElem?_eq_getElem hlt', getD_eq_getElem _ _ hlt']

theorem writeCell_eq (hx : 0 ≤ x) (hlt : x < a.length) (v : α) : writeCell a x v = .ok (a.set x.toNat v) :=
  if_pos ⟨hx, hlt⟩

theorem getD_set {p q : ℕ} (hp : p < a.length) (v d : α) : (a.set p v).getD q d = if q = p then v else a.getD q d := by
  rw [getD_eq_getElem?_getD, List.getElem?_set, getD_eq_getElem?_getD]
  by_cases hqp : q = p
  · rw [if_pos hqp.symm, if_pos hp, if_pos hqp]
    rfl
  · rw [if_neg (Ne.symm hqp), if_neg hqp]

end

section
variable {n nk i j i' j' : ℕ} {k k' : ℤ} {a : List ℤ}

def a3View (n nk : ℕ) (a : List ℤ) (i j : ℕ) (k : ℤ) : ℤ := a.getD (a3Index i j k n nk).toNat 0

def A3Bounds (n nk i j : ℕ) (k : ℤ) : Prop := i < n ∧ j < n ∧ 0 ≤ k ∧ k < nk

theorem A3Bounds.index (h : A3Bounds n nk i j k) : 0 ≤ a3Index i j k n nk ∧ a3Index i j k n nk < (n * n * nk : ℕ) := by
  obtain ⟨hi, hj, hk, hlt⟩ := h
  unfold a3Index
  have h1 : ((i * n + j : ℕ) : ℤ) * nk + k < ((i * n + j + 1 : ℕ) : ℤ) * nk := by
    push_cast
    linarith
  have h2 : i * n + j + 1 ≤ n * n := by
    calc i * n + j + 1 ≤ (i + 1) * n := by linarith
      _ ≤ n * n := Nat.mul_le_mul_right n hi
  have h3 : ((i * n + j + 1 : ℕ) : ℤ) * nk ≤ ((n * n : ℕ) : ℤ) * nk :=
    mul_le_mul_of_nonneg_right (by exact_mod_cast h2) (by positivity)
  refine ⟨by positivity, ?_⟩
  push_cast at *
  linarith

theorem a3Index_inj (h : A3Bounds n nk i j k) (h' : A3Bounds n nk i' j' k') :
    (a3Index i j k n nk).toNat = (a3Index i' j' k' n nk).toNat ↔ i = i' ∧ j = j' ∧ k = k' := by
  have hx := h.index.1
  have hx' := h'.index.1
  refine ⟨fun heq => ?_, fun ⟨hi, hj, hk⟩ => by rw [hi, hj, hk]⟩
  have heq' : a3Index i j k n nk = a3Index i' j' k' n nk := by omega
  obtain ⟨-, hj, hk, hlt⟩ := h
  obtain ⟨-, hj', hk', hlt'⟩ := h'
  unfold a3Index at heq'
  have hkk : k = k' := by
    have := congrArg (· % (nk : ℤ)) heq'
    simpa only [Int.mul_add_emod_self_right, Int.emod_eq_of_lt hk hlt, Int.emod_eq_of_lt hk' hlt',
      add_comm, Int.add_mul_emod_self_right] using this
  subst hkk
  have hrow : i * n + j = i' * n + j' := by
    have := mul_right_cancel₀ (show (nk : ℤ) ≠ 0 by omega) (add_right_cancel heq')
    exact_mod_cast this
  have hjj : j = j' := by
    have := congrArg (· % n) hrow
    simpa only [Nat.mul_add_mod', Nat.mod_eq_of_lt hj, Nat.mod_eq_of_lt hj', add_comm, Nat.add_mul_mod_self_right]
      using this
  subst hjj
  exact ⟨Nat.eq_of_mul_eq_mul_right (show 0 < n by omega) (Nat.add_right_cancel hrow), rfl, rfl⟩

theorem a3Get_eq (hlen : a.length = n * n * nk) (h : A3Bounds n nk i j k) :
    a3Get a i j k n nk = .ok (a3View n nk a i j k) :=
  readCell_eq h.index.1 (by rw [hlen]; exact h.index.2) 0

theorem a3Set_eq (hlen : a.length = n * n * nk) (h : A3Bounds n nk i j k) (v : ℤ) :
    ∃ a', a3Set a i j k n nk v = .ok a' ∧ a'.length = n * n * nk ∧ ∀ i' j' k', A3Bounds n nk i' j' k' →
        a3View n nk a' i' j' k' = if i' = i ∧ j' = j ∧ k' = k then v else a3View n nk a i' j' k' := by
  obtain ⟨h0, hlt⟩ := h.index
  refine ⟨_, writeCell_eq h0 (by rwa [hlen]) v, by rw [length_set, hlen], fun i' j' k' h' => ?_⟩
  unfold a3View
  rw [getD_set (by omega)]
  simp only [a3Index_inj h' h]

end

/-! ## The pairs of positions -/

theorem mem_upperPairs {n : ℕ} {p : Σ _ : ℕ, ℕ} : p ∈ upperPairs n ↔ p.1 < p.2 ∧ p.2 < n := by
  obtain ⟨i, j⟩ := p
  simp only [upperPairs, mem_sigma, mem_range, mem_range'_1]
  omega

theorem nodup_upperPairs (n : ℕ) : (upperPairs n).Nodup :=
  nodup_range.sigma fun _ => nodup_range'

theorem mem_otherPairs {n : ℕ} {p : Σ _ : ℕ, ℕ} : p ∈ otherPairs n ↔ p.1 < n ∧ p.2 < n ∧ p.1 ≠ p.2 := by
  obtain ⟨i, j⟩ := p
  simp only [otherPairs, mem_sigma, mem_range, mem_filter, decide_eq_true_eq]

theorem nodup_otherPairs (n : ℕ) : (otherPairs n).Nodup :=
  nodup_range.sigma fun _ => nodup_range.filter _

/-! ## The first pass -/

def minOf (S : Finset ℤ) : ℤ := S.fold min bpMaxint1W id

def maxOf (S : Finset ℤ) : ℤ := S.fold max bpMinint1W id

theorem minOf_insert (v : ℤ) (S : Finset ℤ) : minOf (insert v S) = min v (minOf S) :=
  Finset.fold_insert_idem

theorem maxOf_insert (v : ℤ) (S : Finset ℤ) : maxOf (insert v S) = max v (maxOf S) :=
  Finset.fold_insert_idem

section
variable {n nk i j : ℕ} {k : ℤ} {a : List ℤ} {arrays : List ℤ × List ℤ} {done : List (List ℤ)} {t : List ℤ}

def Sized (n nk : ℕ) (arrays : List ℤ × List ℤ) : Prop :=
  arrays.1.length = n * n * nk ∧ arrays.2.length = n * n * nk

/-- The entries of the pair `i`, `j` are those of the supports in `done`. -/
def BoundsOf (n nk : ℕ) (done : List (List ℤ)) (i j : ℕ) (arrays : List ℤ × List ℤ) : Prop :=
  ∀ k : ℤ, 0 ≤ k → k < nk → a3View n nk arrays.1 i j k = minOf (supports done i j k) ∧
    a3View n nk arrays.2 i j k = maxOf (supports done i j k)

section
variable (hlen : a.length = n * n * nk) (h : A3Bounds n nk i j k) (v : ℤ)
include hlen h v

theorem lowerMin_spec : ∃ a', lowerMin a i j k n nk v = .ok a' ∧ a'.length = n * n * nk ∧
      ∀ i' j' k', A3Bounds n nk i' j' k' → a3View n nk a' i' j' k' =
          if i' = i ∧ j' = j ∧ k' = k then min v (a3View n nk a i' j' k') else a3View n nk a i' j' k' := by
  simp only [lowerMin, a3Get_eq hlen h, bind, Except.bind]
  by_cases hlt : v < a3View n nk a i j k
  · rw [if_pos hlt]
    obtain ⟨a', ha', hlen', hview⟩ := a3Set_eq hlen h v
    refine ⟨a', ha', hlen', fun i' j' k' h' => ?_⟩
    rw [hview i' j' k' h']
    split_ifs with heq
    · rw [heq.1, heq.2.1, heq.2.2, min_eq_left hlt.le]
    · rfl
  · rw [if_neg hlt]
    refine ⟨a, rfl, hlen, fun i' j' k' h' => ?_⟩
    split_ifs with heq
    · rw [heq.1, heq.2.1, heq.2.2, min_eq_right (not_lt.1 hlt)]
    · rfl

theorem raiseMax_spec : ∃ a', raiseMax a i j k n nk v = .ok a' ∧ a'.length = n * n * nk ∧
      ∀ i' j' k', A3Bounds n nk i' j' k' → a3View n nk a' i' j' k' =
          if i' = i ∧ j' = j ∧ k' = k then max v (a3View n nk a i' j' k') else a3View n nk a i' j' k' := by
  simp only [raiseMax, a3Get_eq hlen h, bind, Except.bind]
  by_cases hlt : v > a3View n nk a i j k
  · rw [if_pos hlt]
    obtain ⟨a', ha', hlen', hview⟩ := a3Set_eq hlen h v
    refine ⟨a', ha', hlen', fun i' j' k' h' => ?_⟩
    rw [hview i' j' k' h']
    split_ifs with heq
    · rw [heq.1, heq.2.1, heq.2.2, max_eq_left hlt.le]
    · rfl
  · rw [if_neg hlt]
    refine ⟨a, rfl, hlen, fun i' j' k' h' => ?_⟩
    split_ifs with heq
    · rw [heq.1, heq.2.1, heq.2.2, max_eq_right (not_lt.1 hlt)]
    · rfl

end

def Fits (n nk : ℕ) (t : List ℤ) : Prop := n ≤ t.length ∧ ∀ i < n, 0 ≤ t.getD i 0 ∧ t.getD i 0 < nk

theorem Fits.bounds (h : Fits n nk t) (hi : i < n) (hj : j < n) : A3Bounds n nk i j (t.getD i 0) :=
  ⟨hi, hj, (h.2 i hi).1, (h.2 i hi).2⟩

theorem Fits.reuseStack (h : Fits n nk t) : Picat.reuseStack n t = .ok (t.take n) := if_pos h.1

theorem Fits.readStack (h : Fits n nk t) (hi : i < n) : readCell (t.take n) (i : ℤ) = .ok (t.getD i 0) := by
  have hlen : (t.take n).length = n := by rw [length_take, min_eq_left h.1]
  rw [readCell_eq (by omega) (by omega) 0, Int.toNat_natCast, getD_eq_getElem _ _ (by omega),
    getD_eq_getElem _ _ (by have := h.1; omega), getElem_take]

/-- One round: the entries of the pair take the values of the tuple in, in both directions. -/
theorem computeMinMax_spec (hs : Sized n nk arrays) (ht : Fits n nk t) (hij : i < j) (hj : j < n) :
    ∃ arrays', computeMinMax n nk (t.take n) arrays ⟨i, j⟩ = .ok arrays' ∧ Sized n nk arrays' ∧
      ∀ i' j' k', A3Bounds n nk i' j' k' →
        a3View n nk arrays'.1 i' j' k' = (if (i' = i ∧ j' = j ∨ i' = j ∧ j' = i) ∧ k' = t.getD i' 0
          then min (t.getD j' 0) (a3View n nk arrays.1 i' j' k') else a3View n nk arrays.1 i' j' k') ∧
        a3View n nk arrays'.2 i' j' k' = (if (i' = i ∧ j' = j ∨ i' = j ∧ j' = i) ∧ k' = t.getD i' 0
          then max (t.getD j' 0) (a3View n nk arrays.2 i' j' k') else a3View n nk arrays.2 i' j' k') := by
  have hi : i < n := by omega
  obtain ⟨a₁, ha₁, hlen₁, hview₁⟩ := lowerMin_spec hs.1 (ht.bounds hi hj) (t.getD j 0)
  obtain ⟨b₁, hb₁, hlen₁', hview₁'⟩ := raiseMax_spec hs.2 (ht.bounds hi hj) (t.getD j 0)
  obtain ⟨a₂, ha₂, hlen₂, hview₂⟩ := lowerMin_spec hlen₁ (ht.bounds hj hi) (t.getD i 0)
  obtain ⟨b₂, hb₂, hlen₂', hview₂'⟩ := raiseMax_spec hlen₁' (ht.bounds hj hi) (t.getD i 0)
  refine ⟨(a₂, b₂), ?_, ⟨hlen₂, hlen₂'⟩, fun i' j' k' h' => ⟨?_, ?_⟩⟩
  · simp only [computeMinMax, ht.readStack hi, ht.readStack hj, ha₁, hb₁, ha₂, hb₂, bind, Except.bind]
    rfl
  · rw [hview₂ i' j' k' h', hview₁ i' j' k' h']
    split_ifs <;> grind
  · rw [hview₂' i' j' k' h', hview₁' i' j' k' h']
    split_ifs <;> grind

def SameElse (n nk i j : ℕ) (arrays arrays' : List ℤ × List ℤ) : Prop :=
  ∀ i' j' k', A3Bounds n nk i' j' k' → ¬ (i' = i ∧ j' = j ∨ i' = j ∧ j' = i) →
    a3View n nk arrays'.1 i' j' k' = a3View n nk arrays.1 i' j' k' ∧
      a3View n nk arrays'.2 i' j' k' = a3View n nk arrays.2 i' j' k'

def PairBounds (n nk : ℕ) (done : List (List ℤ)) (p : Σ _ : ℕ, ℕ) (arrays : List ℤ × List ℤ) : Prop :=
  BoundsOf n nk done p.1 p.2 arrays ∧ BoundsOf n nk done p.2 p.1 arrays

theorem SameElse.pairBounds {arrays' : List ℤ × List ℤ} {p : Σ _ : ℕ, ℕ} (h : SameElse n nk i j arrays arrays')
    (hij : i < j) (hp : p ∈ upperPairs n) (hne : p ≠ ⟨i, j⟩) (hb : PairBounds n nk done p arrays) :
    PairBounds n nk done p arrays' := by
  obtain ⟨i', j'⟩ := p
  obtain ⟨hlt, hj⟩ := mem_upperPairs.1 hp
  simp only at hlt hj
  have hpair : ¬ (i' = i ∧ j' = j ∨ i' = j ∧ j' = i) := by
    rintro (⟨rfl, rfl⟩ | ⟨rfl, rfl⟩)
    · exact hne rfl
    · exact lt_asymm hij hlt
  refine ⟨fun k hk hkn => ?_, fun k hk hkn => ?_⟩
  · obtain ⟨h1, h2⟩ := h i' j' k ⟨by omega, hj, hk, hkn⟩ hpair
    rw [h1, h2]
    exact hb.1 k hk hkn
  · obtain ⟨h1, h2⟩ := h j' i' k ⟨hj, by omega, hk, hkn⟩ fun hor => hpair (by tauto)
    rw [h1, h2]
    exact hb.2 k hk hkn

theorem computeMinMax_loop (hs : Sized n nk arrays) (ht : Fits n nk t)
    (hb : ∀ p ∈ upperPairs n, PairBounds n nk done p arrays) :
    ∃ arrays', (upperPairs n).foldlM (computeMinMax n nk (t.take n)) arrays = .ok arrays' ∧ Sized n nk arrays' ∧
      ∀ p ∈ upperPairs n, PairBounds n nk (done ++ [t]) p arrays' := by
  refine Loops.exists_foldlM_each (computeMinMax n nk (t.take n)) (Sized n nk) (PairBounds n nk done)
    (PairBounds n nk (done ++ [t])) _ (nodup_upperPairs n) arrays hs hb ?_
  rintro ⟨i, j⟩ hp arrays hs ⟨hij, hji⟩
  obtain ⟨hlt, hj⟩ := mem_upperPairs.1 hp
  simp only at hlt hj hij hji
  have hi : i < n := by omega
  obtain ⟨arrays', hrun, hs', hview⟩ := computeMinMax_spec hs ht hlt hj
  have hsame : SameElse n nk i j arrays arrays' := fun i' j' k' h' hpair => by
    obtain ⟨h1, h2⟩ := hview i' j' k' h'
    rw [h1, h2, if_neg fun h => hpair h.1, if_neg fun h => hpair h.1]
    exact ⟨rfl, rfl⟩
  refine ⟨arrays', hrun, hs', ⟨fun k hk hkn => ?_, fun k hk hkn => ?_⟩, fun p hp hne =>
    ⟨hsame.pairBounds hlt hp hne, hsame.pairBounds hlt hp hne⟩⟩
  · obtain ⟨h1, h2⟩ := hview i j k ⟨hi, hj, hk, hkn⟩
    rw [h1, h2, supports_append, (hij k hk hkn).1, (hij k hk hkn).2]
    by_cases hkt : t.getD i 0 = k
    · simp only [hkt, and_self, true_or, if_true, minOf_insert, maxOf_insert]
    · simp only [hkt, Ne.symm hkt, and_false, if_false, and_self]
  · obtain ⟨h1, h2⟩ := hview j i k ⟨hj, hi, hk, hkn⟩
    rw [h1, h2, supports_append, (hji k hk hkn).1, (hji k hk hkn).2]
    by_cases hkt : t.getD j 0 = k
    · simp only [hkt, and_self, or_true, if_true, minOf_insert, maxOf_insert]
    · simp only [hkt, Ne.symm hkt, and_false, if_false, and_self]

theorem initializeMinMax_loop (hs : Sized n nk arrays) (hij : i < j) (hj : j < n) :
    ∃ arrays', (List.range nk).foldlM (initializeMinMax n nk i j) arrays = .ok arrays' ∧ Sized n nk arrays' ∧
      PairBounds n nk [] ⟨i, j⟩ arrays' ∧ SameElse n nk i j arrays arrays' := by
  have hi : i < n := by omega
  obtain ⟨arrays', hrun, hs', hset, hsame⟩ := Loops.exists_foldlM_range (initializeMinMax n nk i j)
    (fun c arrays' => Sized n nk arrays' ∧ (∀ k : ℤ, 0 ≤ k → k < nk → k < c →
        (a3View n nk arrays'.1 i j k = bpMaxint1W ∧ a3View n nk arrays'.2 i j k = bpMinint1W) ∧
        a3View n nk arrays'.1 j i k = bpMaxint1W ∧ a3View n nk arrays'.2 j i k = bpMinint1W) ∧
      SameElse n nk i j arrays arrays') nk arrays
    ⟨hs, fun k hk _ hlt => by omega, fun _ _ _ _ _ => ⟨rfl, rfl⟩⟩ fun c hc arrays' ⟨hs', hset, hsame⟩ => by
      have hbij : A3Bounds n nk i j c := ⟨hi, hj, by omega, by omega⟩
      have hbji : A3Bounds n nk j i c := ⟨hj, hi, by omega, by omega⟩
      obtain ⟨a₁, ha₁, hlen₁, hview₁⟩ := a3Set_eq hs'.1 hbij bpMaxint1W
      obtain ⟨b₁, hb₁, hlen₁', hview₁'⟩ := a3Set_eq hs'.2 hbij bpMinint1W
      obtain ⟨a₂, ha₂, hlen₂, hview₂⟩ := a3Set_eq hlen₁ hbji bpMaxint1W
      obtain ⟨b₂, hb₂, hlen₂', hview₂'⟩ := a3Set_eq hlen₁' hbji bpMinint1W
      refine ⟨(a₂, b₂), ?_, ⟨hlen₂, hlen₂'⟩, fun k hk hkn hkc => ?_, fun i' j' k' h' hpair => ?_⟩
      · simp only [initializeMinMax, ha₁, hb₁, ha₂, hb₂, bind, Except.bind]
      · have hij' := hset k hk hkn
        simp only [hview₂ _ _ _ ⟨hi, hj, hk, hkn⟩, hview₂ _ _ _ ⟨hj, hi, hk, hkn⟩, hview₂' _ _ _ ⟨hi, hj, hk, hkn⟩,
          hview₂' _ _ _ ⟨hj, hi, hk, hkn⟩, hview₁ _ _ _ ⟨hi, hj, hk, hkn⟩, hview₁ _ _ _ ⟨hj, hi, hk, hkn⟩,
          hview₁' _ _ _ ⟨hi, hj, hk, hkn⟩, hview₁' _ _ _ ⟨hj, hi, hk, hkn⟩]
        grind
      · simp only at h' ⊢
        rw [hview₂ _ _ _ h', hview₂' _ _ _ h', hview₁ _ _ _ h', hview₁' _ _ _ h']
        obtain ⟨h1, h2⟩ := hsame i' j' k' h' hpair
        rw [h1, h2]
        split_ifs <;> grind
  exact ⟨arrays', hrun, hs', ⟨fun k hk hkn => (hset k hk hkn hkn).1, fun k hk hkn => (hset k hk hkn hkn).2⟩, hsame⟩

theorem initializeMinMaxArrays_spec (hs : Sized n nk arrays) :
    ∃ arrays', initializeMinMaxArrays n nk arrays = .ok arrays' ∧ Sized n nk arrays' ∧
      ∀ p ∈ upperPairs n, PairBounds n nk [] p arrays' := by
  refine Loops.exists_foldlM_each
    (fun arrays (p : Σ _ : ℕ, ℕ) => (List.range nk).foldlM (initializeMinMax n nk p.1 p.2) arrays) (Sized n nk)
    (fun _ _ => True) (PairBounds n nk []) _ (nodup_upperPairs n) arrays hs (fun _ _ => trivial) ?_
  rintro ⟨i, j⟩ hp arrays hs -
  obtain ⟨hlt, hj⟩ := mem_upperPairs.1 hp
  obtain ⟨arrays', hrun, hs', hb, hsame⟩ := initializeMinMax_loop hs hlt hj
  exact ⟨arrays', hrun, hs', hb, fun p hp hne => ⟨fun _ => trivial, hsame.pairBounds hlt hp hne⟩⟩

theorem computeMinsMaxsIn_spec {tuples : List (List ℤ)} (hs : Sized n nk arrays) (ht : ∀ t ∈ tuples, Fits n nk t)
    (hb : ∀ p ∈ upperPairs n, PairBounds n nk [] p arrays) :
    ∃ arrays', computeMinsMaxsIn n nk tuples arrays = .ok arrays' ∧ Sized n nk arrays' ∧
      ∀ i < n, ∀ j < n, i ≠ j → BoundsOf n nk tuples i j arrays' := by
  obtain ⟨arrays', hrun, hs', hb'⟩ := Loops.exists_foldlM
    (fun arrays tuple => do
      let stack ← reuseStack n tuple
      (upperPairs n).foldlM (computeMinMax n nk stack) arrays)
    (fun done arrays => Sized n nk arrays ∧ ∀ p ∈ upperPairs n, PairBounds n nk done p arrays) tuples arrays ⟨hs, hb⟩
    fun done t rest hl arrays ⟨hs, hb⟩ => by
      have hfit : Fits n nk t := ht t (by simp [hl])
      simp only [hfit.reuseStack, bind, Except.bind]
      exact computeMinMax_loop hs hfit hb
  refine ⟨arrays', hrun, hs', fun i hi j hj hij => ?_⟩
  rcases lt_or_gt_of_ne hij with hlt | hlt
  · exact (hb' ⟨i, j⟩ (mem_upperPairs.2 ⟨hlt, hj⟩)).1
  · exact (hb' ⟨j, i⟩ (mem_upperPairs.2 ⟨hlt, hi⟩)).2

end

end Picat
