import Picat.FlatZinc.Meets
import Picat.Lib.IntDivision

/-!
# Global constraints

The documented meaning of Picat's global constraints against that of FlatZinc's, and the two remainders of a
division.
-/

namespace Picat.FlatZinc
open Picat.Automaton List

theorem fmod_eq_tmod_iff {x y : ℤ} (hy : y ≠ 0) : x.fmod y = x.tmod y ↔ y ∣ x ∨ (0 < x ↔ 0 < y) := by
  by_cases hdvd : y ∣ x
  · exact iff_of_true (by rw [Int.fmod_eq_zero_of_dvd hdvd, Int.tmod_eq_zero_of_dvd hdvd]) (.inl hdvd)
  have hx : x ≠ 0 := fun h => hdvd (h ▸ dvd_zero y)
  rw [Int.fmod_eq_tmod, if_neg hdvd]
  have hne := Int.natAbs_ne_zero.2 hy
  split_ifs with h1 h2 h2
  · exact iff_of_true (add_zero _) (.inr (iff_of_true (by omega) (by omega)))
  · apply iff_of_false (by omega)
    rintro (h | h)
    · exact hdvd h
    · omega
  · apply iff_of_false (by omega)
    rintro (h | h)
    · exact hdvd h
    · omega
  · refine iff_of_true ?_ (.inr (iff_of_false (by omega) (by omega)))
    rw [Int.toNat_of_nonpos (by omega)]
    simp

section
variable {ι : Type} {σ : ι → ℤ} {x y z v n : Arg ι} {xs ys : List (Arg ι)}

theorem eval_quot {w : ℤ} :
    (Exp.quot (.arg x) (.arg y)).eval σ = some w ↔ y.val σ ≠ 0 ∧ w = (x.val σ).tdiv (y.val σ) := by
  change (if y.val σ = 0 then none else some _) = _ ↔ _
  split_ifs with h0
  · exact iff_of_false (by simp) fun h => h.1 h0
  · rw [Option.some.injEq]
    exact ⟨fun h => ⟨h0, h.symm⟩, fun h => h.2.symm⟩

theorem eval_mod {w : ℤ} :
    (Exp.mod (.arg x) (.arg y)).eval σ = some w ↔ y.val σ ≠ 0 ∧ w = (x.val σ).fmod (y.val σ) := by
  change (if y.val σ = 0 then none else some _) = _ ↔ _
  split_ifs with h0
  · exact iff_of_false (by simp) fun h => h.1 h0
  · rw [Option.some.injEq, mul_comm, ← Int.fmod_def]
    exact ⟨fun h => ⟨h0, h.symm⟩, fun h => h.2.symm⟩

/-! ## Extreme elements and counts -/

theorem eval_maxL : (Exp.maxL xs).eval σ = some (x.val σ) ↔ maximumHolds σ x xs := List.max?_eq_some_iff

theorem eval_minL : (Exp.minL xs).eval σ = some (x.val σ) ↔ minimumHolds σ x xs := List.min?_eq_some_iff

theorem sum_truth (l : List ℤ) (w : ℤ) : (l.map fun u => truth (w = u)).sum = l.count w := by
  induction l with
  | nil => rfl
  | cons u l ih =>
    rw [map_cons, sum_cons, ih, count_cons]
    unfold truth
    by_cases h : w = u
    · rw [if_pos h, if_pos (beq_iff_eq.2 h.symm)]
      omega
    · rw [if_neg h, if_neg fun hu => h (beq_iff_eq.1 hu).symm]
      omega

theorem meets_count {r : Rel} {p : Prop} (hp : r.Holds (occurrences σ xs v) (n.val σ) ↔ p) :
    Meets σ (postCount r xs v n) p := by
  refine meets_ok.2 ⟨trivial, ?_⟩
  unfold Goal.Holds
  rw [sum_truth]
  exact hp

theorem meets_alldifferentExcept0 :
    Meets σ (post (.alldifferentExcept0 xs)) ((Fzn.alldifferentExcept0 xs).Holds σ) := by
  refine meets_ok.2 ⟨trivial, ?_⟩
  unfold Goal.Holds Fzn.Holds
  rw [pairwise_filter, pairwise_iff_getElem]
  simp only [decide_eq_true_eq]
  constructor
  · intro h i j u w hu hw hij hu0 hw0
    obtain ⟨hi, rfl⟩ := List.getElem?_eq_some_iff.1 hu
    obtain ⟨hj, rfl⟩ := List.getElem?_eq_some_iff.1 hw
    rcases Nat.lt_or_gt_of_ne hij with hlt | hgt
    · exact h i j hi hj hlt hu0 hw0
    · exact (h j i hj hi hgt hw0 hu0).symm
  · intro h i j hi hj hlt hu0 hw0
    exact h i j _ _ (List.getElem?_eq_getElem hi) (List.getElem?_eq_getElem hj) (Nat.ne_of_lt hlt) hu0 hw0

theorem lexHolds_iff {l l' : List ℤ} : lexHolds l l' ↔ l < l' := by
  rw [List.lt_iff_exists]
  unfold lexHolds
  constructor
  · intro h
    obtain ⟨k, hsame, ⟨u, w, hu, hw, hlt⟩ | ⟨hlen, hk⟩⟩ := h
    · obtain ⟨hk, rfl⟩ := List.getElem?_eq_some_iff.1 hu
      obtain ⟨hk', rfl⟩ := List.getElem?_eq_some_iff.1 hw
      refine .inr ⟨k, hk, hk', fun j hj => ?_, hlt⟩
      have := hsame j hj
      rw [List.getElem?_eq_getElem (by omega), List.getElem?_eq_getElem (by omega)] at this
      exact Option.some.inj this
    · refine .inl ⟨?_, by omega⟩
      apply List.ext_getElem?
      intro j
      rw [List.getElem?_take, hlen]
      split_ifs with hj
      · exact hsame j hj
      · exact List.getElem?_eq_none (by omega)
  · rintro (⟨htake, hlen⟩ | ⟨k, hk, hk', hsame, hlt⟩)
    · refine ⟨l.length, fun j hj => ?_, .inr ⟨rfl, hlen⟩⟩
      have hj' := congrArg (fun l'' => l''[j]?) htake
      rw [hj', List.getElem?_take, if_pos hj]
    · refine ⟨k, fun j hj => ?_, .inl ⟨_, _, List.getElem?_eq_getElem hk, List.getElem?_eq_getElem hk', hlt⟩⟩
      rw [List.getElem?_eq_getElem (by omega), List.getElem?_eq_getElem (by omega), hsame j hj]

theorem meets_lexLt : Meets σ (.ok (.lexLt xs ys)) (lexHolds (vals σ xs) (vals σ ys)) :=
  meets_ok.2 ⟨trivial, lexHolds_iff.symm⟩

theorem meets_lexLe : Meets σ (.ok (.lexLe xs ys)) (vals σ xs = vals σ ys ∨ lexHolds (vals σ xs) (vals σ ys)) := by
  refine meets_ok.2 ⟨trivial, ?_⟩
  rw [lexHolds_iff]
  exact le_iff_eq_or_lt

theorem meets_table {t : List ℤ} (hne : xs ≠ []) (hdvd : xs.length ∣ t.length) :
    Meets σ (postTable xs t) (tableHolds σ xs t) := by
  have hpos : xs.length ≠ 0 := fun h => hne (length_eq_zero_iff.1 h)
  obtain ⟨rows, hrows⟩ := hdvd
  obtain ⟨tuples, ht, hmem⟩ := exists_transformTable hpos hrows (Nat.zero_le rows)
  rw [Nat.mul_zero, Nat.zero_add] at ht
  unfold postTable
  rw [ht]
  refine meets_ok.2 ⟨trivial, ?_⟩
  unfold Goal.Holds tableHolds
  rw [hmem, hrows, Nat.mul_div_cancel_left rows (Nat.pos_of_ne_zero hpos)]
  have hlen : (vals σ xs).length = xs.length := length_map _
  have hrow : ∀ row < rows, (vals σ xs = (t.drop (xs.length * row)).take xs.length ↔
      ∀ j < xs.length, (vals σ xs)[j]? = t[xs.length * row + j]?) := by
    intro row _
    constructor
    · intro h j hj
      rw [h, List.getElem?_take, if_pos hj, List.getElem?_drop]
    · intro h
      apply ext_getElem?
      intro j
      rw [List.getElem?_take, List.getElem?_drop]
      split_ifs with hj
      · exact h j hj
      · exact List.getElem?_eq_none (by omega)
  constructor
  · intro hp
    obtain ⟨row, _, hlt, h⟩ := hp
    exact ⟨row, hlt, (hrow row hlt).1 h⟩
  · intro hp
    obtain ⟨row, hlt, h⟩ := hp
    exact ⟨row, Nat.zero_le row, hlt, (hrow row hlt).2 h⟩

/-! ## Automata -/

section
variable {q s q0 : ℕ} {d : List Elem} {f : SetTerm} {m : ℕ → ℕ → Option Elem}

theorem mem_states_matrixEntry {w : ℤ} {next : ℕ} (hw : 0 ≤ w) :
    next ∈ (matrixEntry (some (.int w))).states ↔ (Elem.int w).LeadsTo next := by
  unfold matrixEntry Entry.states Elem.LeadsTo
  dsimp only
  split_ifs with h0
  · apply iff_of_false not_mem_nil
    omega
  · rw [mem_singleton]
    omega

theorem mem_accepting {state : ℕ} (hf : ∀ w, f.Mem w → 1 ≤ w ∧ w ≤ q) : state ∈ f.dom.map Int.toNat ↔ f.Mem state := by
  rw [mem_map]
  constructor
  · intro hp
    obtain ⟨w, hw, rfl⟩ := hp
    have hmem := mem_dom.1 hw
    have := hf w hmem
    rw [Int.toNat_of_nonneg (by omega)]
    exact hmem
  · intro h
    exact ⟨state, mem_dom.2 h, Int.toNat_natCast state⟩

theorem mem_acceptsFrom_iff (hcells : ∀ a b, 1 ≤ a → a ≤ q → 1 ≤ b → b ≤ s → m a b = d[(a - 1) * s + b - 1]?)
    (hd : ∀ e ∈ d, ∃ w, e = .int w ∧ 0 ≤ w ∧ w ≤ q) (hf : ∀ w, f.Mem w → 1 ≤ w ∧ w ≤ q) (l : List ℤ) {state : ℕ}
    (h1 : 1 ≤ state) (hq : state ≤ q) :
    l ∈ (automaton s (fun i j => matrixEntry (m i j)) q0 (f.dom.map Int.toNat)).acceptsFrom {state} ↔
      regularFrom s d f state l := by
  induction l generalizing state with
  | nil =>
    rw [NFA.nil_mem_acceptsFrom]
    unfold regularFrom
    rw [← mem_accepting hf]
    exact ⟨fun ⟨st, hst, h⟩ => hst ▸ h, fun h => ⟨state, rfl, h⟩⟩
  | cons u l ih =>
    rw [NFA.cons_mem_acceptsFrom, NfaRuns.mem_acceptsFrom_iff_exists, NFA.stepSet_singleton]
    have hnext : ∀ next, next ∈ (automaton s (fun i j => matrixEntry (m i j)) q0 (f.dom.map Int.toNat)).step state u ↔
        (1 ≤ u ∧ u ≤ s) ∧ ∃ e ∈ d[(state - 1) * s + (u.toNat - 1)]?, e.LeadsTo next := by
      intro next
      change 1 ≤ u ∧ u ≤ s ∧ next ∈ (matrixEntry (m state u.toNat)).states ↔ _
      rw [and_assoc]
      refine and_congr_right fun hu1 => and_congr_right fun hus => ?_
      rw [hcells state u.toNat h1 hq (by omega) (by omega), Nat.add_sub_assoc (by omega)]
      cases hcell : d[(state - 1) * s + (u.toNat - 1)]? with
      | none => exact iff_of_false not_mem_nil fun ⟨e, he, _⟩ => absurd he (by simp)
      | some e =>
        obtain ⟨w, rfl, hw, _⟩ := hd e (mem_of_getElem? hcell)
        rw [mem_states_matrixEntry hw]
        exact ⟨fun h => ⟨_, rfl, h⟩, fun ⟨e, he, h⟩ => by cases he; exact h⟩
    unfold regularFrom
    constructor
    · intro hp
      obtain ⟨next, hstep, hacc⟩ := hp
      obtain ⟨hu, e, he, hlead⟩ := (hnext next).1 hstep
      obtain ⟨w, rfl, hw, hwq⟩ := hd e (mem_of_getElem? he)
      unfold Elem.LeadsTo at hlead
      exact ⟨hu, _, he, next, hlead, (ih (by omega) (by omega)).1 hacc⟩
    · intro hp
      obtain ⟨hu, e, he, next, hlead, hacc⟩ := hp
      refine ⟨next, (hnext next).2 ⟨hu, e, he, hlead⟩, (ih ?_ ?_).2 hacc⟩
      all_goals
        obtain ⟨w, rfl, hw, hwq⟩ := hd e (mem_of_getElem? he)
        unfold Elem.LeadsTo at hlead
        omega

theorem meets_regular (hwf : automatonWellFormed q s d q0 f) (hd : ∀ e ∈ d, ∃ w, e = .int w ∧ 0 ≤ w ∧ w ≤ q) :
    Meets σ (postRegular xs q s d q0 f) (regularFrom s d f q0 (vals σ xs)) := by
  obtain ⟨⟨hq1, hq⟩, hlen, hf⟩ := hwf
  obtain ⟨m, hm, hcells⟩ := @exists_fzn1dTo2d q s 1 1 1 d (fun _ _ => none) hlen (le_refl 1) (le_refl 1) (by omega)
    (by omega)
  have hcells' : ∀ a b, 1 ≤ a → a ≤ q → 1 ≤ b → b ≤ s → m a b = d[(a - 1) * s + b - 1]? := by
    intro a b ha haq hb hbs
    rw [hcells a b ha haq hb hbs, if_pos (by omega)]
  unfold postRegular
  rw [hm]
  refine meets_ok.2 ⟨⟨⟨hq1, hq⟩, fun a ha haq b hb hbs => ?_⟩, mem_acceptsFrom_iff hcells' hd hf _ hq1 hq⟩
  rw [hcells' a b ha haq hb hbs]
  have hrow := Nat.mul_le_mul_right s (show a - 1 + 1 ≤ q by omega)
  rw [Nat.succ_mul] at hrow
  have hlt : (a - 1) * s + b - 1 < d.length := by omega
  obtain ⟨w, hw, _⟩ := hd _ (getElem_mem hlt)
  exact ⟨w, by rw [List.getElem?_eq_getElem hlt, hw]⟩

theorem not_meets_regularNfa {p : Prop} (hwf : automatonWellFormed q s d q0 f)
    (hd : ∀ e ∈ d, ∃ set, e = .set set ∧ ∀ w, set.Mem w → 1 ≤ w ∧ w ≤ q) (hs : s ≠ 0) :
    ¬ Meets σ (postRegular xs q s d q0 f) p := by
  obtain ⟨⟨hq1, hq⟩, hlen, hf⟩ := hwf
  obtain ⟨m, hm, hcells⟩ := @exists_fzn1dTo2d q s 1 1 1 d (fun _ _ => none) hlen (le_refl 1) (le_refl 1) (by omega)
    (by omega)
  unfold postRegular
  rw [hm]
  intro h
  obtain ⟨w, hw⟩ := (meets_ok.1 h).1.2 1 (le_refl 1) (by omega) 1 (le_refl 1) (by omega)
  rw [hcells 1 1 (le_refl 1) (by omega) (le_refl 1) (by omega), if_pos (by omega)] at hw
  obtain ⟨set, hset, _⟩ := hd _ (mem_of_getElem? hw)
  cases hset

end

/-! ## Inverses -/

/-- The first array is shorter, and the first places of the second are its inverse. -/
def LongerInverse (l l' : List ℤ) : Prop :=
  l.length < l'.length ∧ inverseHolds l (l'.take l.length) ∧ ∀ w ∈ l'.drop l.length, 1 ≤ w ∧ w ≤ l.length

section
variable {l l' : List ℤ} (h : inverseHolds l l')
include h

theorem inverseHolds.symm : inverseHolds l' l :=
  ⟨h.2.1, h.1, fun i j u w hu hw => (h.2.2 j i w u hw hu).symm⟩

theorem inverseHolds.length_le : l.length ≤ l'.length := by
  obtain ⟨hl, _, hinv⟩ := h
  have hplace : ∀ i : Fin l.length, l[i].toNat - 1 < l'.length := by
    intro i
    have := hl l[i] (getElem_mem i.isLt)
    omega
  have hinj : Function.Injective fun i : Fin l.length => (⟨l[i].toNat - 1, hplace i⟩ : Fin l'.length) := by
    intro i i' heq
    have hval := Fin.mk.inj_iff.1 heq
    have h1 := hl l[i] (getElem_mem i.isLt)
    have h2 := hl l[i'] (getElem_mem i'.isLt)
    have hw := List.getElem?_eq_getElem (hplace i)
    have e1 := (hinv i _ l[i] _ (List.getElem?_eq_getElem i.isLt) hw).1 (by omega)
    have e2 := (hinv i' _ l[i'] _ (List.getElem?_eq_getElem i'.isLt) hw).1 (by omega)
    exact Fin.ext (by omega)
  simpa using Fintype.card_le_of_injective _ hinj

theorem inverseHolds.length_eq : l.length = l'.length :=
  Nat.le_antisymm h.length_le h.symm.length_le

end

/-- `assignment` reads the places `1..N` of the second array, and bounds all its elements. -/
theorem holds_assignment_iff (hle : xs.length ≤ ys.length) : (Goal.assignment xs ys).Holds σ ↔
    inverseHolds (vals σ xs) ((vals σ ys).take xs.length) ∧
      ∀ w ∈ (vals σ ys).drop xs.length, 1 ≤ w ∧ w ≤ xs.length := by
  have hx : (vals σ xs).length = xs.length := length_map _
  have hy : (vals σ ys).length = ys.length := length_map _
  have htake : ((vals σ ys).take xs.length).length = xs.length := by
    rw [length_take, hy]
    omega
  unfold Goal.Holds inverseHolds
  rw [hx, htake]
  simp only [mem_interval]
  constructor
  · intro hp
    obtain ⟨hl, hl', hinv⟩ := hp
    refine ⟨⟨hl, fun w hw => hl' w (mem_of_mem_take hw), fun i j u w hu hw => ?_⟩,
      fun w hw => hl' w (mem_of_mem_drop hw)⟩
    have hi := (List.getElem?_eq_some_iff.1 hu).1
    have hj := (List.getElem?_eq_some_iff.1 hw).1
    rw [List.getElem?_take, if_pos (by omega)] at hw
    obtain ⟨u', w', hu', hw', h⟩ := hinv i (by omega) j (by omega)
    rw [hu] at hu'
    rw [hw] at hw'
    cases hu'
    cases hw'
    exact h
  · intro hp
    obtain ⟨⟨hl, hl', hinv⟩, hrest⟩ := hp
    refine ⟨hl, fun w hw => ?_, fun i hi j hj => ?_⟩
    · rw [← take_append_drop xs.length (vals σ ys), mem_append] at hw
      exact hw.elim (hl' w) (hrest w)
    · have hu := List.getElem?_eq_getElem (show i < (vals σ xs).length by omega)
      have hw := List.getElem?_eq_getElem (show j < (vals σ ys).length by omega)
      refine ⟨_, _, hu, hw, hinv i j _ _ hu ?_⟩
      rw [List.getElem?_take, if_pos hj, hw]

theorem not_holds_assignment (hlt : ys.length < xs.length) : ¬ (Goal.assignment xs ys).Holds σ := by
  intro hp
  obtain ⟨_, _, h⟩ := hp
  obtain ⟨_, w, _, hw, _⟩ := h 0 (by omega) ys.length hlt
  have := (List.getElem?_eq_some_iff.1 hw).1
  rw [vals, length_map] at this
  omega

theorem meets_inverse_iff : Meets σ (post (.inverse xs ys)) ((Fzn.inverse xs ys).Holds σ) ↔
    ¬ LongerInverse (vals σ xs) (vals σ ys) := by
  have hx : (vals σ xs).length = xs.length := length_map _
  have hy : (vals σ ys).length = ys.length := length_map _
  have hmeets : Meets σ (post (.inverse xs ys)) ((Fzn.inverse xs ys).Holds σ) ↔
      ((Goal.assignment xs ys).Holds σ ↔ inverseHolds (vals σ xs) (vals σ ys)) :=
    meets_ok.trans (and_iff_right trivial)
  rw [hmeets]
  unfold LongerInverse
  rw [hx, hy]
  rcases lt_trichotomy xs.length ys.length with hlt | heq | hgt
  · have hnot : ¬ inverseHolds (vals σ xs) (vals σ ys) := fun h => by
      have := h.length_eq
      omega
    rw [holds_assignment_iff hlt.le, and_iff_right hlt, iff_false_right hnot]
  · have hle : (vals σ ys).length ≤ xs.length := by omega
    rw [holds_assignment_iff heq.le, take_of_length_le hle, drop_of_length_le hle]
    apply iff_of_true (and_iff_left fun w hw => absurd hw not_mem_nil)
    intro h
    omega
  · have hnot : ¬ inverseHolds (vals σ xs) (vals σ ys) := fun h => by
      have := h.length_eq
      omega
    apply iff_of_true (iff_of_false (not_holds_assignment hgt) hnot)
    intro h
    omega

end

end Picat.FlatZinc

/-! # What `post` posts -/

namespace Picat.FlatZinc
open IntDivision List

/-- The remainder is that of a truncating division just when it is that of one that rounds down. -/
def modKeeps (x y m : ℤ) : Prop :=
  y = 0 ∨ y ∣ x ∨ (0 < x ↔ 0 < y) ∨ m ≠ x.tmod y ∧ m ≠ x.fmod y

section
variable {ι : Type} {σ : ι → ℤ}

/-- A sum has a term; the second array of `inverse` is no longer one that begins with the inverse; the automaton of
`regular_nfa` has no inputs. What `count_reif` posts is never a documented constraint. -/
def Fzn.Keeps (σ : ι → ℤ) : Fzn ι → Prop
  | .intMod x y m => modKeeps (x.val σ) (y.val σ) (m.val σ)
  | .intLinEq cs _ _ | .intLinNe cs _ _ | .intLinLe cs _ _ | .intLinGe cs _ _ | .intLinLt cs _ _
  | .intLinGt cs _ _ | .boolLinEq cs _ _ | .boolLinLe cs _ _ | .intLinEqReif cs _ _ _ | .intLinNeReif cs _ _ _
  | .intLinLeReif cs _ _ _ | .intLinGeReif cs _ _ _ | .intLinLtReif cs _ _ _ | .intLinGtReif cs _ _ _ => cs ≠ []
  | .inverse vec1 vec2 => ¬ LongerInverse (vals σ vec1) (vals σ vec2)
  | .countReif .. => False
  | .regularNfa _ _ s _ _ _ => s = 0
  | _ => True

def postBoth (c c' : Fzn ι) : Except PostError (Goal ι) := do
  let g ← post c
  let h ← post c'
  return .conj g h

section
variable {x y z b d m : Arg ι}

theorem modKeeps_iff {u v w : ℤ} (hv : v ≠ 0) : modKeeps u v w ↔ (w = u.fmod v ↔ w = u.tmod v) := by
  unfold modKeeps
  rw [or_iff_right hv, ← or_assoc, ← fmod_eq_tmod_iff hv]
  constructor
  · rintro (h | ⟨h1, h2⟩)
    · rw [h]
    · exact iff_of_false h2 h1
  · intro h
    by_cases hw : w = u.tmod v
    · exact .inl ((h.2 hw).symm.trans hw)
    · exact .inr ⟨hw, fun hf => hw (h.1 hf)⟩

theorem meets_intMod_iff : Meets σ (post (.intMod x y m)) ((Fzn.intMod x y m).Holds σ) ↔
    modKeeps (x.val σ) (y.val σ) (m.val σ) := by
  refine meets_ok.trans ((and_iff_right rfl).trans ?_)
  rw [holds_fun, eval_mod]
  change (y.val σ ≠ 0 ∧ _ ↔ y.val σ ≠ 0 ∧ _) ↔ _
  by_cases hy : y.val σ = 0
  · exact iff_of_true (iff_of_false (fun h => h.1 hy) fun h => h.1 hy) (.inl hy)
  · rw [and_iff_right hy, and_iff_right hy, modKeeps_iff hy]

/-- Quotient and remainder together: a wrong quotient is rejected whatever the remainder is. -/
theorem meets_intDivMod_iff (hy : y.val σ ≠ 0) : Meets σ (postBoth (.intDiv x y d) (.intMod x y m))
    (TruncDivMod (x.val σ) (y.val σ) (d.val σ) (m.val σ)) ↔
      d.val σ ≠ (x.val σ).tdiv (y.val σ) ∨ modKeeps (x.val σ) (y.val σ) (m.val σ) := by
  have htrunc := truncDivMod_tdiv (x.val σ) hy
  have hspec : TruncDivMod (x.val σ) (y.val σ) (d.val σ) (m.val σ) ↔
      d.val σ = (x.val σ).tdiv (y.val σ) ∧ m.val σ = (x.val σ).tmod (y.val σ) := by
    constructor
    · intro h
      exact h.unique htrunc
    · intro ⟨hd, hm⟩
      rw [hd, hm]
      exact htrunc
  refine meets_ok.trans ((and_iff_right ⟨rfl, rfl⟩).trans ?_)
  change ((Goal.constr _).Holds σ ∧ (Goal.constr _).Holds σ ↔ _) ↔ _
  rw [holds_fun, holds_fun, eval_quot, eval_mod, and_iff_right hy, and_iff_right hy, hspec, modKeeps_iff hy]
  by_cases hd : d.val σ = (x.val σ).tdiv (y.val σ)
  · rw [and_iff_right hd, and_iff_right hd, or_iff_right (not_not.2 hd)]
  · exact iff_of_true (iff_of_false (fun h => hd h.1) fun h => hd h.1) (.inl hd)

end

/-! ## Booleans -/

section
variable {x y z b : Arg ι}

section
variable (hx : x.val σ = 0 ∨ x.val σ = 1)
include hx

theorem meets_bool2int : Meets σ (post (.bool2int x y)) ((Fzn.bool2int x y).Holds σ) := by
  refine meets_ok.2 ⟨⟨trivial, rfl⟩, ?_⟩
  change x.val σ = y.val σ ∧ (bool01 y).Holds σ ↔ (x.val σ = 1 ∧ y.val σ = 1) ∨ (¬ x.val σ = 1 ∧ y.val σ = 0)
  rw [holds_bool01]
  omega

theorem meets_boolEq (hy : y.val σ = 0 ∨ y.val σ = 1) : Meets σ (post (.boolEq x y)) ((Fzn.boolEq x y).Holds σ) := by
  refine meets_ok.2 ⟨trivial, ?_⟩
  change x.val σ = y.val σ ↔ (x.val σ = 1 ↔ y.val σ = 1)
  omega

theorem bool_lt_iff (hy : y.val σ = 0 ∨ y.val σ = 1) : Rel.lt.Holds (x.val σ) (y.val σ) ↔ ¬ x.True σ ∧ y.True σ := by
  change x.val σ < y.val σ ↔ ¬ x.val σ = 1 ∧ y.val σ = 1
  omega

theorem meets_boolNot : Meets σ (post (.boolNot x y)) ((Fzn.boolNot x y).Holds σ) := by
  refine meets_constr rfl rfl (truth_eq_one.trans ?_)
  change (y.val σ = 1 ↔ truth (x.val σ = 0) = 1) ↔ (y.val σ = 1 ↔ ¬ x.val σ = 1)
  rw [truth_eq_one]
  omega

end

theorem meets_boolAnd (hz : z.val σ = 0 ∨ z.val σ = 1) :
    Meets σ (post (.boolAnd x y z)) ((Fzn.boolAnd x y z).Holds σ) := by
  apply meets_fun rfl
  change some (truth (x.val σ = 1 ∧ y.val σ = 1)) = some (z.val σ) ↔ _
  rw [Option.some.injEq]
  exact truth_eq_iff hz

theorem bool_xor_iff : (x.val σ = 1 ∧ y.val σ ≠ 1) ∨ (x.val σ ≠ 1 ∧ y.val σ = 1) ↔ ¬ (x.True σ ↔ y.True σ) := by
  unfold Arg.True
  omega

end

end

end Picat.FlatZinc
