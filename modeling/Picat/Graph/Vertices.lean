import Mathlib.Algebra.Order.BigOperators.Group.Finset
import Mathlib.Data.Finset.Sort
import Mathlib.Order.Interval.Finset.Nat

/-!
# Vertices, edges and the start of a cycle

The lists of vertices and edges of `hcp` and `scc`, and the choice of a start among the vertices that are in.
Arrays are functions on `1..N`, and `foreach (I in 1..N)` is a statement about every `I` in it.

* `hcpSccChooseStart` : a vertex known to be in, or the first one that is in.
-/

namespace Picat.Graph
open Finset

variable {V ι : Type} [DecidableEq V]

/-- The Boolean of a vertex or of an edge: a constant or a variable. -/
inductive Boolean (ι : Type)
  | zero
  | one
  | var (x : ι)
deriving DecidableEq

def Boolean.val (σ : ι → Bool) : Boolean ι → Bool
  | .zero => false
  | .one => true
  | .var x => σ x

/-- How many of `s` have their Boolean set: the `sum` of an array. -/
def count (s : Finset ℕ) (b : ℕ → Bool) : ℕ := (s.filter fun i => b i = true).card

theorem count_eq_one {s : Finset ℕ} {b : ℕ → Bool} : count s b = 1 ↔ ∃! i, i ∈ s ∧ b i = true := by
  unfold count
  rw [card_eq_one]
  constructor
  · intro h
    obtain ⟨i, hi⟩ := h
    have hmem : ∀ j, j ∈ s ∧ b j = true ↔ j = i := by
      intro j
      have hj := Finset.ext_iff.1 hi j
      rwa [mem_filter, mem_singleton] at hj
    exact ⟨i, (hmem i).2 rfl, fun j hj => (hmem j).1 hj⟩
  · intro h
    obtain ⟨i, hi, huniq⟩ := h
    refine ⟨i, ?_⟩
    apply Finset.ext
    intro j
    rw [mem_filter, mem_singleton]
    constructor
    · exact huniq j
    · rintro rfl
      exact hi

/-! ## What is in -/

def InVertex (Vs : List (V × Boolean ι)) (σ : ι → Bool) (v : V) : Prop := ∃ b, (v, b) ∈ Vs ∧ b.val σ = true

def InEdge (Es : List (V × V × Boolean ι)) (σ : ι → Bool) (u v : V) : Prop := ∃ b, (u, v, b) ∈ Es ∧ b.val σ = true

omit [DecidableEq V] in
theorem inEdge_iff {Es : List (V × V × Boolean ι)} {σ : ι → Bool} {u v : V} :
    InEdge Es σ u v ↔ ∃ e ∈ Es, e.1 = u ∧ e.2.1 = v ∧ e.2.2.val σ = true := by
  constructor
  · intro h
    obtain ⟨b, he, hb⟩ := h
    exact ⟨_, he, rfl, rfl, hb⟩
  · intro h
    obtain ⟨⟨u, v, b⟩, he, rfl, rfl, hb⟩ := h
    exact ⟨b, he, hb⟩

def inVertices (Vs : List (V × Boolean ι)) (σ : ι → Bool) : Finset V :=
  ((Vs.filter fun p => p.2.val σ).map Prod.fst).toFinset

theorem mem_inVertices {Vs : List (V × Boolean ι)} {σ : ι → Bool} {v : V} : v ∈ inVertices Vs σ ↔ InVertex Vs σ v := by
  unfold inVertices InVertex
  simp

/-! ## The list of vertices -/

inductive GraphError (V : Type)
  | duplicatedVertexName (v : V)
  | unknownVertexName (v : V)
  | outOfBounds

/-- `N`, `VNumMap`, `Bs`, `NZeros` and `MinK`. -/
structure CheckedVs (V ι : Type) where
  n : ℕ
  vNumMap : V → Option ℕ
  bs : List (Boolean ι)
  nZeros : ℕ
  minK : ℕ

def hcpSccCheckVs : List (V × Boolean ι) → ℕ → (V → Option ℕ) → ℕ → ℕ → Except (GraphError V) (CheckedVs V ι)
  | [], i, vNumMap, countZeros0, countOnes0 => .ok ⟨i - 1, vNumMap, [], countZeros0, countOnes0⟩
  | (v, b) :: vs, i, vNumMap, countZeros0, countOnes0 =>
    let countZeros1 := match b with | .zero => countZeros0 + 1 | _ => countZeros0
    let countOnes1 := match b with | .one => countOnes0 + 1 | _ => countOnes0
    if (vNumMap v).isSome then .error (.duplicatedVertexName v)
    else
      match hcpSccCheckVs vs (i + 1) (Function.update vNumMap v (some i)) countZeros1 countOnes1 with
      | .error e => .error e
      | .ok r => .ok { r with bs := b :: r.bs }

/-- `A = to_array(Bs)`. -/
def toArray (bs : List (Boolean ι)) (σ : ι → Bool) (I : ℕ) : Bool := (bs.getD (I - 1) .zero).val σ

def num (Vs : List (V × Boolean ι)) (v : V) : ℕ := (Vs.map Prod.fst).idxOf v + 1

def numberOf (Vs : List (V × Boolean ι)) (v : V) : Option ℕ :=
  if v ∈ Vs.map Prod.fst then some (num Vs v) else none

def zeros (Vs : List (V × Boolean ι)) : ℕ := Vs.countP fun p => match p.2 with | .zero => true | _ => false

def ones (Vs : List (V × Boolean ι)) : ℕ := Vs.countP fun p => match p.2 with | .one => true | _ => false

theorem checkVs_spec (Vs : List (V × Boolean ι)) (i : ℕ) (m : V → Option ℕ) (z o : ℕ)
    (hnodup : (Vs.map Prod.fst).Nodup) (hfresh : ∀ v ∈ Vs.map Prod.fst, m v = none) :
    hcpSccCheckVs Vs (i + 1) m z o = .ok ⟨i + Vs.length,
        fun v => if v ∈ Vs.map Prod.fst then some (i + num Vs v) else m v,
        Vs.map Prod.snd, z + zeros Vs, o + ones Vs⟩ := by
  induction Vs generalizing i m z o with
  | nil => simp [hcpSccCheckVs, zeros, ones]
  | cons p Vs ih =>
    obtain ⟨v, b⟩ := p
    simp only [List.map_cons, List.nodup_cons] at hnodup
    have hv : m v = none := hfresh v (by simp)
    have hfresh' : ∀ w ∈ Vs.map Prod.fst, Function.update m v (some (i + 1)) w = none := by
      intro w hw
      have hne : w ≠ v := ne_of_mem_of_not_mem hw hnodup.1
      rw [Function.update_of_ne hne]
      exact hfresh w (by simp only [List.map_cons, List.mem_cons]; exact .inr hw)
    unfold hcpSccCheckVs
    rw [hv, Option.isSome_none, if_neg Bool.false_ne_true, ih _ _ _ _ hnodup.2 hfresh']
    simp only [Except.ok.injEq, CheckedVs.mk.injEq, List.map_cons, true_and]
    refine ⟨by simp only [List.length_cons]; omega, ?_, ?_, ?_⟩
    · funext w
      by_cases hwv : w = v
      · subst hwv
        simp [hnodup.1, num]
      · have hidx : num ((v, b) :: Vs) w = num Vs w + 1 := by
          unfold num
          rw [List.map_cons, List.idxOf_cons_ne _ (Ne.symm hwv)]
        simp only [List.mem_cons, hwv, false_or, Function.update_of_ne hwv, hidx, Nat.add_assoc, Nat.add_comm]
    · cases b <;> simp [zeros]
      omega
    · cases b <;> simp [ones]
      omega

theorem checkVs_of_nodup (Vs : List (V × Boolean ι)) (hnodup : (Vs.map Prod.fst).Nodup) :
    hcpSccCheckVs Vs 1 (fun _ => none) 0 0 = .ok ⟨Vs.length, numberOf Vs, Vs.map Prod.snd, zeros Vs, ones Vs⟩ := by
  have h := checkVs_spec Vs 0 (fun _ => none) 0 0 hnodup (fun _ _ => rfl)
  simp only [Nat.zero_add] at h
  rw [h]
  rfl

/-! ## Numbers and vertices -/

variable {I : ℕ}

section
variable {Vs : List (V × Boolean ι)} {σ : ι → Bool}

theorem num_mem_Icc {v : V} (hv : v ∈ Vs.map Prod.fst) : num Vs v ∈ Icc 1 Vs.length := by
  have hlt := List.idxOf_lt_length_of_mem hv
  rw [List.length_map] at hlt
  rw [mem_Icc]
  unfold num
  omega

theorem num_inj {v w : V} (hv : v ∈ Vs.map Prod.fst) (h : num Vs v = num Vs w) : v = w := by
  unfold num at h
  exact (List.idxOf_inj hv).1 (Nat.succ_injective h)

theorem exists_num (hnodup : (Vs.map Prod.fst).Nodup) (hI : I ∈ Icc 1 Vs.length) :
    ∃ v b, (v, b) ∈ Vs ∧ num Vs v = I := by
  rw [mem_Icc] at hI
  have hlt : I - 1 < Vs.length := by omega
  refine ⟨Vs[I - 1].1, Vs[I - 1].2, List.getElem_mem hlt, ?_⟩
  have hlen : I - 1 < (Vs.map Prod.fst).length := by
    rw [List.length_map]
    exact hlt
  have hget : (Vs.map Prod.fst)[I - 1] = Vs[I - 1].1 := List.getElem_map _
  unfold num
  rw [← hget, hnodup.idxOf_getElem]
  omega

theorem toArray_num (hnodup : (Vs.map Prod.fst).Nodup) {v : V} {b : Boolean ι} (h : (v, b) ∈ Vs) :
    toArray (Vs.map Prod.snd) σ (num Vs v) = b.val σ := by
  obtain ⟨n, hn, hget⟩ := List.getElem_of_mem h
  have hlen : n < (Vs.map Prod.fst).length := by
    rw [List.length_map]
    exact hn
  have hfst : (Vs.map Prod.fst)[n] = v := by
    rw [List.getElem_map, hget]
  have hnum : num Vs v = n + 1 := by
    unfold num
    rw [← hfst, hnodup.idxOf_getElem]
  unfold toArray
  rw [hnum, Nat.add_sub_cancel, List.getD_eq_getElem?_getD, List.getElem?_map, List.getElem?_eq_getElem hn, hget]
  rfl

theorem toArray_num_iff (hnodup : (Vs.map Prod.fst).Nodup) {v : V} (hv : v ∈ Vs.map Prod.fst) :
    toArray (Vs.map Prod.snd) σ (num Vs v) = true ↔ InVertex Vs σ v := by
  constructor
  · intro h
    obtain ⟨⟨w, b⟩, hmem, rfl⟩ := List.mem_map.1 hv
    rw [toArray_num hnodup hmem] at h
    exact ⟨b, hmem, h⟩
  · intro hp
    obtain ⟨b, hmem, hb⟩ := hp
    rw [toArray_num hnodup hmem, hb]

omit [DecidableEq V] in
theorem InVertex.mem {v : V} (h : InVertex Vs σ v) : v ∈ Vs.map Prod.fst := by
  obtain ⟨b, hmem, -⟩ := h
  exact List.mem_map.2 ⟨_, hmem, rfl⟩

section
variable (hnodup : (Vs.map Prod.fst).Nodup)
include hnodup

theorem count_toArray : count (Icc 1 Vs.length) (toArray (Vs.map Prod.snd) σ) = (inVertices Vs σ).card := by
  symm
  apply card_nbij (num Vs)
  · intro v hv
    have hin := mem_inVertices.1 hv
    exact mem_filter.2 ⟨num_mem_Icc hin.mem, (toArray_num_iff hnodup hin.mem).2 hin⟩
  · intro v hv w _ h
    exact num_inj (mem_inVertices.1 hv).mem h
  · intro I hI
    obtain ⟨hI, hb⟩ := mem_filter.1 (mem_coe.1 hI)
    obtain ⟨v, b, hmem, rfl⟩ := exists_num hnodup hI
    rw [toArray_num hnodup hmem] at hb
    exact ⟨v, mem_coe.2 (mem_inVertices.2 ⟨b, hmem, hb⟩), rfl⟩

theorem card_inVertices : (inVertices Vs σ).card = Vs.countP fun p => p.2.val σ := by
  unfold inVertices
  rw [List.toFinset_card_of_nodup, List.length_map, List.countP_eq_length_filter]
  exact (List.filter_sublist.map Prod.fst).nodup hnodup

theorem ones_le_card : ones Vs ≤ (inVertices Vs σ).card := by
  rw [card_inVertices hnodup]
  apply List.countP_mono_left
  rintro ⟨v, b⟩ - h
  cases b <;> simp_all [Boolean.val]

theorem card_add_zeros_le : (inVertices Vs σ).card + zeros Vs ≤ Vs.length := by
  rw [card_inVertices hnodup, List.length_eq_countP_add_countP (fun p : V × Boolean ι => p.2.val σ)]
  apply Nat.add_le_add_left
  apply List.countP_mono_left
  rintro ⟨v, b⟩ - h
  cases b <;> simp_all [Boolean.val]

end

end

/-- A matrix whose columns have one edge each, and whose edges are edges of `s`, has all the edges of `s`. -/
theorem matrix_iff {n : ℕ} {s : ℕ → ℕ} {h : ℕ → ℕ → Bool} (hmaps : ∀ I ∈ Icc 1 n, s I ∈ Icc 1 n)
    (hrow : ∀ I ∈ Icc 1 n, ∀ J ∈ Icc 1 n, h I J = true → s I = J)
    (hinto : ∀ J ∈ Icc 1 n, count (Icc 1 n) (fun I => h I J) = 1) :
    (∀ I ∈ Icc 1 n, ∀ J ∈ Icc 1 n, h I J = true ↔ s I = J) ∧ Set.InjOn s (Icc 1 n : Finset ℕ) := by
  -- the row of the one edge of every column
  have hcol : ∀ J : ℕ, ∃ I, J ∈ Icc 1 n → I ∈ Icc 1 n ∧ h I J = true := by
    intro J
    by_cases hJ : J ∈ Icc 1 n
    · obtain ⟨I, ⟨hI, ht⟩, -⟩ := count_eq_one.1 (hinto J hJ)
      exact ⟨I, fun _ => ⟨hI, ht⟩⟩
    · exact ⟨0, fun hJ' => absurd hJ' hJ⟩
  choose row hrowc using hcol
  have hinv : ∀ J ∈ Icc 1 n, s (row J) = J := fun J hJ => hrow _ (hrowc J hJ).1 J hJ (hrowc J hJ).2
  have hsurj : Set.SurjOn s (Icc 1 n : Finset ℕ) (Icc 1 n : Finset ℕ) := by
    intro J hJ
    exact ⟨row J, mem_coe.2 (hrowc J (mem_coe.1 hJ)).1, hinv J (mem_coe.1 hJ)⟩
  have hinj := injOn_of_surjOn_of_card_le s (fun I hI => mem_coe.2 (hmaps I (mem_coe.1 hI))) hsurj (le_refl _)
  refine ⟨fun I hI J hJ => ⟨hrow I hI J hJ, ?_⟩, hinj⟩
  intro heq
  have hrI := hrowc J hJ
  have : row J = I := hinj (mem_coe.2 hrI.1) (mem_coe.2 hI) ((hinv J hJ).trans heq.symm)
  rw [← this]
  exact hrI.2

/-! ## The start -/

/-- What is posted on `Start` and `HasStarted` when no vertex is known to be in. -/
structure StartPattern (N : ℕ) (a : ℕ → Bool) (kGt1 : Bool) (minK : ℕ) (start hasStarted : ℕ → Bool) : Prop where
  /-- `#~A[I] #=> #~Start[I]` -/
  out : ∀ I ∈ Icc 1 N, a I = false → start I = false
  /-- `HasStarted[N-MinK+1] #= 1` or `KGt1 #=> HasStarted[N]` -/
  late : if 1 < minK then hasStarted (N - minK + 1) = true else kGt1 = true → hasStarted N = true
  /-- `A[1] #=> Start[1]` -/
  first : a 1 = true → start 1 = true
  /-- `HasStarted[1] #<=> Start[1]` -/
  hasFirst : hasStarted 1 = true ↔ start 1 = true
  /-- `HasStarted[I-1] #=> HasStarted[I]` -/
  stays : ∀ I ∈ Icc 2 N, hasStarted (I - 1) = true → hasStarted I = true
  /-- `Start[I] #=> #~HasStarted[I-1]` -/
  once : ∀ I ∈ Icc 2 N, start I = true → hasStarted (I - 1) = false
  /-- `Start[I] #=> HasStarted[I]` -/
  has : ∀ I ∈ Icc 2 N, start I = true → hasStarted I = true
  /-- `#~A[I] #\/ HasStarted[I-1] #\/ Start[I]` -/
  must : ∀ I ∈ Icc 2 N, a I = false ∨ hasStarted (I - 1) = true ∨ start I = true
  /-- `#~HasStarted[I] #\/ Start[I] #\/ HasStarted[I-1]` -/
  since : ∀ I ∈ Icc 2 N, hasStarted I = false ∨ start I = true ∨ hasStarted (I - 1) = true

/-- The first index whose `A[I] == 1` holds when the constraint is posted is taken, if there is one. -/
def hcpSccChooseStart (N : ℕ) (a : ℕ → Bool) (kGt1 : Bool) (minK : ℕ) (seenOne start hasStarted : ℕ → Bool) : Prop :=
  match (List.range' 1 N).find? seenOne with
  | some startI => start startI = true ∧ ∀ I ∈ Icc 1 N, I ≠ startI → start I = false
  | none => StartPattern N a kGt1 minK start hasStarted

namespace StartPattern
variable {N minK : ℕ} {a start hasStarted : ℕ → Bool} {kGt1 : Bool}

section
variable (h : StartPattern N a kGt1 minK start hasStarted)
include h

theorem has' (hI : I ∈ Icc 1 N) (hs : start I = true) : hasStarted I = true := by
  rw [mem_Icc] at hI
  rcases Nat.eq_or_lt_of_le hI.1 with h1 | h1
  · rw [← h1] at hs ⊢
    exact h.hasFirst.2 hs
  · exact h.has I (mem_Icc.2 ⟨h1, hI.2⟩) hs

theorem mono {J : ℕ} (hI : 1 ≤ I) (hIJ : I ≤ J) (hJ : J ≤ N) (hs : hasStarted I = true) : hasStarted J = true := by
  induction J, hIJ using Nat.le_induction with
  | base => exact hs
  | succ J hIJ ih => exact h.stays (J + 1) (mem_Icc.2 ⟨by omega, hJ⟩) (ih (by omega))

section
variable {J : ℕ} (hI : I ∈ Icc 1 N) (hJ : J ∈ Icc 1 N) (hsI : start I = true) (hsJ : start J = true)
include hI hJ hsI hsJ

theorem not_lt : ¬ I < J := by
  intro hlt
  rw [mem_Icc] at hJ
  have hbefore := h.mono (mem_Icc.1 hI).1 (Nat.le_sub_one_of_lt hlt) (by omega) (h.has' hI hsI)
  rw [h.once J (mem_Icc.2 ⟨by have := (mem_Icc.1 hI).1; omega, hJ.2⟩) hsJ] at hbefore
  exact Bool.false_ne_true hbefore

theorem unique : I = J :=
  le_antisymm (Nat.le_of_not_lt (h.not_lt hJ hI hsJ hsI)) (Nat.le_of_not_lt (h.not_lt hI hJ hsI hsJ))

end

theorem exists_of_hasStarted (hI : I ∈ Icc 1 N) (hs : hasStarted I = true) : ∃ J ∈ Icc 1 N, start J = true := by
  rw [mem_Icc] at hI
  obtain ⟨hI1, hIN⟩ := hI
  induction I, hI1 using Nat.le_induction with
  | base => exact ⟨1, mem_Icc.2 ⟨le_refl 1, hIN⟩, h.hasFirst.1 hs⟩
  | succ I hI1 ih =>
    rcases h.since (I + 1) (mem_Icc.2 ⟨by omega, hIN⟩) with hf | ht | hp
    · rw [hf] at hs
      exact absurd hs Bool.false_ne_true
    · exact ⟨I + 1, mem_Icc.2 ⟨by omega, hIN⟩, ht⟩
    · exact ih hp (by omega)

theorem exists_start (hI : I ∈ Icc 1 N) (ha : a I = true) : ∃ J ∈ Icc 1 N, start J = true := by
  have hI' := mem_Icc.1 hI
  rcases Nat.eq_or_lt_of_le hI'.1 with h1 | h1
  · rw [← h1] at ha
    exact ⟨1, mem_Icc.2 ⟨le_refl 1, by omega⟩, h.first ha⟩
  · rcases h.must I (mem_Icc.2 ⟨h1, hI'.2⟩) with hf | hp | hs
    · rw [ha] at hf
      exact absurd hf Bool.true_eq_false_eq_False
    · exact h.exists_of_hasStarted (mem_Icc.2 ⟨by omega, by omega⟩) hp
    · exact ⟨I, hI, hs⟩

end

theorem of_first {s : ℕ} (hs : s ∈ Icc 1 N) (ha : a s = true) (hfirst : ∀ I ∈ Icc 1 N, a I = true → s ≤ I)
    (hmin : minK ≤ count (Icc 1 N) a) :
    StartPattern N a kGt1 minK (fun I => decide (I = s)) (fun I => decide (s ≤ I)) := by
  have hs' := mem_Icc.1 hs
  have hle : count (Icc 1 N) a ≤ N - s + 1 := by
    have hsub : (Icc 1 N).filter (fun i => a i = true) ⊆ Icc s N := by
      intro I hI
      obtain ⟨hI, haI⟩ := mem_filter.1 hI
      exact mem_Icc.2 ⟨hfirst I hI haI, (mem_Icc.1 hI).2⟩
    have hcard := card_le_card hsub
    rw [Nat.card_Icc] at hcard
    unfold count
    omega
  refine ⟨?_, ?_, ?_, ?_, ?_, ?_, ?_, ?_, ?_⟩
  · intro I _ hI
    rw [decide_eq_false_iff_not]
    rintro rfl
    rw [ha] at hI
    exact absurd hI Bool.true_eq_false_eq_False
  · split_ifs with h1
    · rw [decide_eq_true_eq]
      omega
    · intro _
      rw [decide_eq_true_eq]
      exact hs'.2
  · intro h1
    have := hfirst 1 (mem_Icc.2 ⟨le_refl 1, by omega⟩) h1
    rw [decide_eq_true_eq]
    omega
  · simp only [decide_eq_true_eq]
    omega
  · intro I hI
    simp only [decide_eq_true_eq]
    omega
  · intro I hI
    rw [mem_Icc] at hI
    simp only [decide_eq_true_eq, decide_eq_false_iff_not]
    omega
  · intro I hI
    simp only [decide_eq_true_eq]
    omega
  · intro I hI
    simp only [decide_eq_true_eq]
    cases hI' : a I with
    | false => exact .inl rfl
    | true =>
      have := hfirst I (mem_Icc.2 ⟨by have := (mem_Icc.1 hI).1; omega, (mem_Icc.1 hI).2⟩) hI'
      right
      omega
  · intro I hI
    simp only [decide_eq_true_eq, decide_eq_false_iff_not]
    omega

theorem of_none (ha : ∀ I ∈ Icc 1 N, a I = false) (hN : 1 ≤ N) (hk : kGt1 = false) (hmin : minK ≤ 1) :
    StartPattern N a kGt1 minK (fun _ => false) (fun _ => false) := by
  refine ⟨fun _ _ _ => rfl, ?_, ?_, Iff.rfl, fun _ _ h => h, fun _ _ _ => rfl, fun _ _ h => h, ?_, fun _ _ => .inl rfl⟩
  · rw [if_neg (by omega), hk]
    exact fun h => h
  · intro h1
    rw [ha 1 (mem_Icc.2 ⟨le_refl 1, hN⟩)] at h1
    exact h1
  · intro I hI
    rw [mem_Icc] at hI
    exact .inl (ha I (mem_Icc.2 ⟨by omega, hI.2⟩))

end StartPattern

/-! ## Choosing it -/

section
variable {N minK : ℕ} {a seenOne start hasStarted : ℕ → Bool} {kGt1 : Bool}

theorem seenOne_of_find {s : ℕ} (h : (List.range' 1 N).find? seenOne = some s) : s ∈ Icc 1 N ∧ seenOne s = true := by
  have hmem := List.mem_of_find?_eq_some h
  rw [List.mem_range'_1] at hmem
  exact ⟨mem_Icc.2 ⟨hmem.1, by omega⟩, List.find?_some h⟩

section
variable (h : hcpSccChooseStart N a kGt1 minK seenOne start hasStarted)
include h

theorem chooseStart_out
    (hseen : ∀ I ∈ Icc 1 N, seenOne I = true → a I = true) (hI : I ∈ Icc 1 N) (hs : start I = true) :
    a I = true := by
  unfold hcpSccChooseStart at h
  split at h
  · rename_i s hfind
    obtain ⟨hs1, hs2⟩ := seenOne_of_find hfind
    by_cases hne : I = s
    · rw [hne]
      exact hseen s hs1 hs2
    · rw [h.2 I hI hne] at hs
      exact absurd hs Bool.false_ne_true
  · by_contra hno
    rw [h.out I hI (Bool.eq_false_iff.2 hno)] at hs
    exact Bool.false_ne_true hs

theorem chooseStart_unique {J : ℕ}
    (hI : I ∈ Icc 1 N) (hJ : J ∈ Icc 1 N) (hsI : start I = true) (hsJ : start J = true) : I = J := by
  unfold hcpSccChooseStart at h
  split at h
  · rename_i s _
    have hone : ∀ K ∈ Icc 1 N, start K = true → K = s := by
      intro K hK hsK
      by_contra hne
      rw [h.2 K hK hne] at hsK
      exact Bool.false_ne_true hsK
    rw [hone I hI hsI, hone J hJ hsJ]
  · exact h.unique hI hJ hsI hsJ

theorem chooseStart_exists (hI : I ∈ Icc 1 N) (ha : a I = true) : ∃ J ∈ Icc 1 N, start J = true := by
  unfold hcpSccChooseStart at h
  split at h
  · rename_i s hfind
    exact ⟨s, (seenOne_of_find hfind).1, h.1⟩
  · exact h.exists_start hI ha

end

variable (kGt1 minK) in
theorem exists_chooseStart (hseen : ∀ I ∈ Icc 1 N, seenOne I = true → a I = true) (hI : I ∈ Icc 1 N)
    (ha : a I = true) (hmin : minK ≤ count (Icc 1 N) a) :
    ∃ s ∈ Icc 1 N, a s = true ∧
      ∃ hasStarted, hcpSccChooseStart N a kGt1 minK seenOne (fun J => decide (J = s)) hasStarted := by
  unfold hcpSccChooseStart
  cases hfind : (List.range' 1 N).find? seenOne with
  | some s =>
    obtain ⟨hs1, hs2⟩ := seenOne_of_find hfind
    refine ⟨s, hs1, hseen s hs1 hs2, fun _ => false, ?_, ?_⟩
    · exact decide_eq_true rfl
    · intro J _ hne
      exact decide_eq_false hne
  | none =>
    have hex : ∃ J, J ∈ Icc 1 N ∧ a J = true := ⟨I, hI, ha⟩
    obtain ⟨hs1, hs2⟩ := Nat.find_spec hex
    exact ⟨Nat.find hex, hs1, hs2, _, StartPattern.of_first hs1 hs2 (fun J hJ haJ => Nat.find_min' hex ⟨hJ, haJ⟩) hmin⟩

theorem chooseStart_none (hseen : ∀ I ∈ Icc 1 N, seenOne I = true → a I = true) (ha : ∀ I ∈ Icc 1 N, a I = false)
    (hN : 1 ≤ N) (hk : kGt1 = false) (hmin : minK ≤ 1) :
    hcpSccChooseStart N a kGt1 minK seenOne (fun _ => false) (fun _ => false) := by
  unfold hcpSccChooseStart
  cases hfind : (List.range' 1 N).find? seenOne with
  | some s =>
    obtain ⟨hs1, hs2⟩ := seenOne_of_find hfind
    have := hseen s hs1 hs2
    rw [ha s hs1] at this
    exact absurd this Bool.false_ne_true
  | none => exact StartPattern.of_none ha hN hk hmin

end

end Picat.Graph
