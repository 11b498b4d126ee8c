import Picat.Bigint.Term
import Picat.Boolean.Propagators
import Picat.Domain.Scan

/-!
# Bits of a log encoding from a domain

`c_sat_propagate_dom_bits` goes through the values of a domain, marks for every bit position which of the two values it
has seen there, and binds the bits of the log vector that have seen only one.

* `cSatPropagateDomBits_iff` : the domains for which it does so.
-/

namespace Picat.Boolean

open Function List

/-- An assignment to an `int`. -/
def int32 (x : ℤ) : ℤ := x.bmod (2 ^ 32)

/-- `(val%2 == 0) ? 2 : 1` -/
def bitMark (val : ℤ) : ℕ := if val.tmod 2 = 0 then 2 else 1

/-- The loop over the bit positions for one value; `>>` keeps the sign. -/
def markBits : ℤ → List ℕ → List ℕ
  | _, [] => []
  | val, m :: ms => (m ||| bitMark val) :: markBits (val >>> (1 : ℕ)) ms

/-- `(elm >= 0) ? elm : -elm` -/
def absInt (elm : ℤ) : ℤ := if elm ≥ 0 then elm else int32 (-elm)

/-- The loop over the domain. It ends at `last` only. -/
def markElms (d : Dvar) (last : ℤ) : ℕ → ℤ → List ℕ → Option (Except Stop (List ℕ))
  | 0, _, _ => none
  | fuel + 1, elm, marks =>
    let marks := markBits (absInt elm) marks
    if elm = last then some (.ok marks)
    else if d.type = .it then markElms d last fuel (int32 (elm + 1)) marks
    else
      match domainNextBv d (int32 (elm + 1)) with
      | .error stop => some (.error stop)
      | .ok elm => markElms d last fuel (int32 elm) marks

section
variable {ι : Type} [DecidableEq ι]

/-- `unify` of a slot with a truth value. -/
def unifyBit (σ : Store ι) (X : Slot ι) (b : Bool) : Option (Store ι) :=
  match deref σ X with
  | .const c => if c = b then some σ else none
  | .var x => some (assignDvar σ x b)

/-- The loop over the vector: mark 1 is for bits that are always 1, mark 2 for bits that are always 0. -/
def bindBits : Store ι → List (Slot ι) → List ℕ → Option (Store ι)
  | σ, X :: Xs, flag :: marks =>
    if flag = 1 then (unifyBit σ X true).bind fun σ => bindBits σ Xs marks
    else if flag = 2 then (unifyBit σ X false).bind fun σ => bindBits σ Xs marks
    else bindBits σ Xs marks
  | σ, _, _ => some σ

def cSatPropagateDomBits (fuel : ℕ) (d : Dvar) (vect : List (Slot ι)) (σ : Store ι) :
    Option (Except Stop (Option (Store ι))) :=
  (markElms d (int32 d.last) fuel (int32 d.first) (List.replicate vect.length 0)).map fun marks =>
    marks.map fun marks => bindBits σ vect marks

/-- On a vector of unbound variables the call ends, and it binds the bits that are the same in all values. -/
def DomBitsMeets (d : Dvar) (xs : List ι) : Prop :=
  ∀ σ : Store ι, (∀ x ∈ xs, σ x = none) →
    ∃ fuel σ1, cSatPropagateDomBits fuel d (xs.map .var) σ = some (.ok (some σ1)) ∧
      (∀ (i : ℕ) (hi : i < xs.length) (b : Bool), σ1 xs[i] = some b ↔ ∀ v ∈ d.elems, v.natAbs.testBit i = b) ∧
      ∀ x, x ∉ xs → σ1 x = σ x

end

/-- An `int` holds every value and its absolute value. -/
def InInt (d : Dvar) : Prop := -2 ^ 31 < d.first ∧ d.last < 2 ^ 31

/-! ## The marks -/

/-- The bit that `>>` brings to the lowest place: the sign is repeated for ever. -/
def OddAt (val : ℤ) (i : ℕ) : Prop := val / 2 ^ i % 2 = 1

/-- The values in `S` have been visited. -/
def Marked (S : Set ℤ) (n : ℕ) (marks : List ℕ) : Prop :=
  marks.length = n ∧ ∀ i < n, ∃ m, marks[i]? = some m ∧ m < 4 ∧
    (m.testBit 0 = true ↔ ∃ v ∈ S, OddAt v i) ∧ (m.testBit 1 = true ↔ ∃ v ∈ S, ¬ OddAt v i)

theorem shiftRight_oddAt (val : ℤ) (i : ℕ) : OddAt (val >>> (1 : ℕ)) i ↔ OddAt val (i + 1) := by
  rw [OddAt, OddAt, Int.shiftRight_eq_div_pow, Int.ediv_ediv_of_nonneg (by positivity)]
  congr! 3
  rw [pow_succ' (2 : ℤ) i]
  rfl

theorem bitMark_of_oddAt {val : ℤ} (h : OddAt val 0) : bitMark val = 1 := by
  rw [OddAt, pow_zero, Int.ediv_one] at h
  rw [bitMark, if_neg]
  intro h2
  have hdvd := Int.dvd_of_tmod_eq_zero h2
  omega

theorem bitMark_of_not_oddAt {val : ℤ} (h : ¬ OddAt val 0) : bitMark val = 2 := by
  rw [OddAt, pow_zero, Int.ediv_one] at h
  rw [bitMark, if_pos]
  exact Int.tmod_eq_zero_of_dvd (by omega)

theorem markBits_getElem? (marks : List ℕ) (val : ℤ) (i : ℕ) :
    (markBits val marks)[i]? = marks[i]?.map fun m => m ||| if val / 2 ^ i % 2 = 1 then 1 else 2 := by
  induction marks generalizing val i with
  | nil => rfl
  | cons m ms ih =>
    rw [markBits]
    cases i with
    | zero =>
      have hmark : bitMark val = if val / 2 ^ 0 % 2 = 1 then 1 else 2 := by
        split_ifs with h
        · exact bitMark_of_oddAt h
        · exact bitMark_of_not_oddAt h
      simp [hmark]
    | succ i =>
      have hshift := shiftRight_oddAt val i
      rw [OddAt, OddAt] at hshift
      simp only [List.getElem?_cons_succ, ih, hshift]

theorem markBits_length (marks : List ℕ) (val : ℤ) : (markBits val marks).length = marks.length := by
  induction marks generalizing val with
  | nil => rfl
  | cons m ms ih => rw [markBits, length_cons, ih, length_cons]

theorem marked_replicate (n : ℕ) : Marked ∅ n (List.replicate n 0) := by
  refine ⟨length_replicate, fun i hi => ⟨0, ?_⟩⟩
  simp [hi]

theorem or_testBit_zero (m : ℕ) {c : Prop} [Decidable c] :
    (m ||| if c then 1 else 2).testBit 0 = true ↔ c ∨ m.testBit 0 = true := by
  rw [Nat.testBit_or, Bool.or_eq_true, or_comm]
  split_ifs with h <;> simp [h]

theorem or_testBit_one (m : ℕ) {c : Prop} [Decidable c] :
    (m ||| if c then 1 else 2).testBit 1 = true ↔ ¬ c ∨ m.testBit 1 = true := by
  rw [Nat.testBit_or, Bool.or_eq_true, or_comm]
  split_ifs with h <;> simp [h, Nat.testBit]

theorem Marked.insert {S : Set ℤ} {n : ℕ} {marks : List ℕ} (h : Marked S n marks) (val : ℤ) :
    Marked (insert val S) n (markBits val marks) := by
  refine ⟨(markBits_length ..).trans h.1, fun i hi => ?_⟩
  obtain ⟨m, hm, hlt, hone, hzero⟩ := h.2 i hi
  refine ⟨m ||| if val / 2 ^ i % 2 = 1 then 1 else 2, by simp [markBits_getElem?, hm], ?_, ?_, ?_⟩
  · apply Nat.or_lt_two_pow (n := 2) hlt
    split_ifs <;> decide
  · rw [or_testBit_zero, hone, Set.exists_mem_insert, OddAt]
  · rw [or_testBit_one, hzero, Set.exists_mem_insert, OddAt]

/-! ## The walk over the domain -/

theorem int32_of_mem {x : ℤ} (h1 : -2 ^ 31 ≤ x) (h2 : x < 2 ^ 31) : int32 x = x :=
  Int.bmod_eq_of_le (by simpa using h1) (by simpa using h2)

theorem int32_mem (x : ℤ) : -2 ^ 31 ≤ int32 x ∧ int32 x < 2 ^ 31 := by
  have h1 := Int.le_bmod (x := x) (m := 2 ^ 32) (by decide)
  have h2 := Int.bmod_lt (x := x) (m := 2 ^ 32) (by decide)
  simp only [int32]
  omega

theorem absInt_eq_abs {x : ℤ} (h1 : -2 ^ 31 < x) : absInt x = |x| := by
  unfold absInt
  split_ifs with h
  · exact (abs_of_nonneg h).symm
  · rw [abs_of_neg (by omega)]
    exact int32_of_mem (by omega) (by omega)

theorem absInt_mem {x : ℤ} (h1 : -2 ^ 31 ≤ x) (h2 : x < 2 ^ 31) :
    0 ≤ absInt x ∧ absInt x < 2 ^ 31 ∨ absInt x = -2 ^ 31 := by
  by_cases h : x = -2 ^ 31
  · right
    subst h
    decide
  · left
    rw [absInt_eq_abs (by omega)]
    exact ⟨abs_nonneg x, abs_lt.2 ⟨by omega, h2⟩⟩

theorem markElms_marked {d : Dvar} {last : ℤ} {n fuel : ℕ} {marks' : List ℕ} :
    ∀ {elm : ℤ} {S : Set ℤ} {marks : List ℕ}, -2 ^ 31 ≤ elm → elm < 2 ^ 31 → Marked S n marks →
      markElms d last fuel elm marks = some (.ok marks') →
      ∃ S', Marked S' n marks' ∧ S'.Nonempty ∧ ∀ v ∈ S', v ∈ S ∨ 0 ≤ v ∧ v < 2 ^ 31 ∨ v = -2 ^ 31 := by
  induction fuel with
  | zero => simp [markElms]
  | succ fuel ih =>
    intro elm S marks h1 h2 hS h
    have hnext : ∀ e, markElms d last fuel (int32 e) (markBits (absInt elm) marks) = some (.ok marks') →
        ∃ S', Marked S' n marks' ∧ S'.Nonempty ∧ ∀ v ∈ S', v ∈ S ∨ 0 ≤ v ∧ v < 2 ^ 31 ∨ v = -2 ^ 31 := by
      intro e he
      obtain ⟨S', hS', hne, hall⟩ := ih (int32_mem e).1 (int32_mem e).2 (hS.insert (absInt elm)) he
      refine ⟨S', hS', hne, fun v hv => ?_⟩
      rcases hall v hv with hv | hv
      · rcases Set.mem_insert_iff.1 hv with rfl | hv
        · exact .inr (absInt_mem h1 h2)
        · exact .inl hv
      · exact .inr hv
    rw [markElms] at h
    split_ifs at h
    · simp only [Option.some.injEq, Except.ok.injEq] at h
      subst h
      refine ⟨_, hS.insert (absInt elm), Set.insert_nonempty .., fun v hv => ?_⟩
      rcases Set.mem_insert_iff.1 hv with rfl | hv
      · exact .inr (absInt_mem h1 h2)
      · exact .inl hv
    · exact hnext _ h
    · cases hd : domainNextBv d (int32 (elm + 1)) with
      | error stop => simp [hd] at h
      | ok e =>
        rw [hd] at h
        exact hnext e h

/-- The absolute values of the elements below `elm`. -/
def visited (d : Dvar) (elm : ℤ) : Set ℤ := {v | ∃ u ∈ d.elems, u < elm ∧ v = |u|}

theorem visited_next {d : Dvar} {elm e : ℤ} (helm : elm ∈ d.elems) (he : BitScan.NextIn d.type.has (elm + 1) e) :
    visited d e = insert |elm| (visited d elm) := by
  have hle := he.le
  ext v
  rw [Set.mem_insert_iff]
  constructor
  · rintro ⟨u, hu, hlt, rfl⟩
    rcases lt_trichotomy u elm with h | rfl | h
    · exact .inr ⟨u, hu, h, rfl⟩
    · exact .inl rfl
    · have := he.le_of_mem h (Dvar.mem_elems.1 hu).2
      omega
  · rintro (rfl | ⟨u, hu, hlt, rfl⟩)
    · exact ⟨elm, helm, by omega, rfl⟩
    · exact ⟨u, hu, by omega, rfl⟩

theorem markElms_elems {d : Dvar} (h : d.Shape) (hint : InInt d) {n : ℕ} :
    ∀ (k : ℕ) (elm : ℤ) (marks : List ℕ), (d.last - elm).toNat = k → elm ∈ d.elems → Marked (visited d elm) n marks →
      ∃ fuel marks', markElms d d.last fuel elm marks = some (.ok marks') ∧
        Marked {v | ∃ u ∈ d.elems, v = |u|} n marks' := by
  intro k
  induction k using Nat.strong_induction_on with
  | h k ih =>
    intro elm marks hk helm hmarks
    have hmem := Dvar.mem_elems.1 helm
    have hint1 := hint.1
    have hint2 := hint.2
    have habs : absInt elm = |elm| := absInt_eq_abs (by omega)
    by_cases hlast : elm = d.last
    · refine ⟨1, markBits (absInt elm) marks, by simp [markElms, hlast], ?_⟩
      have hall : {v | ∃ u ∈ d.elems, v = |u|} = insert |elm| (visited d elm) := by
        ext v
        rw [Set.mem_insert_iff]
        constructor
        · rintro ⟨u, hu, rfl⟩
          rcases eq_or_ne u elm with rfl | hne
          · exact .inl rfl
          · have := (Dvar.mem_elems.1 hu).1
            exact .inr ⟨u, hu, by omega, rfl⟩
        · rintro (rfl | ⟨u, hu, -, rfl⟩)
          · exact ⟨elm, helm, rfl⟩
          · exact ⟨u, hu, rfl⟩
      rw [hall, habs]
      exact hmarks.insert _
    · obtain ⟨e, he, hle⟩ := BitScan.exists_nextIn h.last_mem (show elm + 1 ≤ d.last by omega)
      have hge := he.le
      have hemem : e ∈ d.elems := Dvar.mem_elems.2 ⟨⟨by omega, hle⟩, he.mem⟩
      obtain ⟨fuel, marks', hrun, hmarked⟩ := ih (d.last - e).toNat (by omega) e (markBits (absInt elm) marks) rfl hemem
        (by
          rw [visited_next helm he, habs]
          exact hmarks.insert _)
      refine ⟨fuel + 1, marks', ?_, hmarked⟩
      have hnext : int32 (elm + 1) = elm + 1 := int32_of_mem (by omega) (by omega)
      have hcast : int32 e = e := int32_of_mem (by omega) (by omega)
      rw [markElms, if_neg hlast, hnext]
      cases hd : d.type with
      | it =>
        have heq : e = elm + 1 := le_antisymm (he.le_of_mem (le_refl _) (by rw [hd]; rfl)) hge
        rw [if_pos rfl, ← heq]
        exact hrun
      | bv b =>
        rw [if_neg (by simp), domainNextBv_eq h hd (by omega) (hd ▸ he)]
        dsimp only
        rw [hcast]
        exact hrun

/-! ## Binding the bits -/

def markBit (m : ℕ) : Option Bool := if m = 1 then some true else if m = 2 then some false else none

section
variable {ι : Type} [DecidableEq ι]

theorem unifyBit_var {σ : Store ι} {x : ι} (hx : σ x = none) (b : Bool) :
    unifyBit σ (.var x) b = some (assignDvar σ x b) := by
  rw [unifyBit, deref_of_none hx]

theorem bindBits_eq {xs : List ι} (hnodup : xs.Nodup) {σ : Store ι} (hfree : ∀ x ∈ xs, σ x = none) {marks : List ℕ}
    (hlen : marks.length = xs.length) :
    ∃ σ1, bindBits σ (xs.map .var) marks = some σ1 ∧
      (∀ (i : ℕ) (hi : i < xs.length), ∃ m, marks[i]? = some m ∧ σ1 xs[i] = markBit m) ∧
      ∀ x, x ∉ xs → σ1 x = σ x := by
  induction xs generalizing σ marks with
  | nil => exact ⟨σ, by simp [bindBits], by simp, fun _ _ => rfl⟩
  | cons x xs ih =>
    cases marks with
    | nil => simp at hlen
    | cons m ms =>
      obtain ⟨hx, hnodup⟩ := nodup_cons.1 hnodup
      have hlen : ms.length = xs.length := by simpa using hlen
      -- the first bit is bound, or is left, before the loop goes on
      obtain ⟨σ0, hσ0, h0, hrest⟩ : ∃ σ0, bindBits σ (.var x :: xs.map .var) (m :: ms) = bindBits σ0 (xs.map .var) ms ∧
          σ0 x = markBit m ∧ ∀ y, y ≠ x → σ0 y = σ y := by
        have hxnone := hfree x mem_cons_self
        rw [bindBits, markBit]
        split_ifs with h1 h2
        · rw [unifyBit_var hxnone]
          exact ⟨_, rfl, update_self .., fun y hy => update_of_ne hy ..⟩
        · rw [unifyBit_var hxnone]
          exact ⟨_, rfl, update_self .., fun y hy => update_of_ne hy ..⟩
        · exact ⟨σ, rfl, hxnone, fun _ _ => rfl⟩
      have hfree0 : ∀ y ∈ xs, σ0 y = none := fun y hy =>
        (hrest y fun h => hx (h ▸ hy)).trans (hfree y (mem_cons_of_mem _ hy))
      obtain ⟨σ1, hσ1, hbits, hother⟩ := ih hnodup hfree0 hlen
      refine ⟨σ1, hσ0.trans hσ1, fun i hi => ?_, fun y hy => ?_⟩
      · cases i with
        | zero => exact ⟨m, rfl, (hother x hx).trans h0⟩
        | succ i => exact hbits i (Nat.lt_of_succ_lt_succ hi)
      · obtain ⟨hyx, hy⟩ := not_or.1 fun h => hy (mem_cons.2 h)
        exact (hother y hy).trans (hrest y hyx)

end

theorem natAbs_testBit (v : ℤ) (i : ℕ) : v.natAbs.testBit i = true ↔ OddAt |v| i := by
  rw [Nat.testBit_eq_decide_div_mod_eq, decide_eq_true_iff, OddAt, Int.abs_eq_natAbs]
  norm_cast

theorem markBit_eq_some {S : Set ℤ} {i m : ℕ} (hne : S.Nonempty) (hlt : m < 4)
    (hone : m.testBit 0 = true ↔ ∃ v ∈ S, OddAt v i) (hzero : m.testBit 1 = true ↔ ∃ v ∈ S, ¬ OddAt v i) (b : Bool) :
    markBit m = some b ↔ ∀ v ∈ S, (OddAt v i ↔ b = true) := by
  obtain ⟨u, hu⟩ := hne
  have hiff : ∀ c : Bool, markBit m = some c ↔ m.testBit 0 = c ∧ m.testBit 1 = !c := by
    intro c
    interval_cases m <;> cases c <;> decide
  rw [hiff]
  cases b with
  | true =>
    simp only [hone, Bool.not_true, iff_true]
    rw [← Bool.not_eq_true, hzero]
    constructor
    · intro h v hv
      by_contra hno
      exact h.2 ⟨v, hv, hno⟩
    · intro h
      exact ⟨⟨u, hu, h u hu⟩, fun ⟨v, hv, hno⟩ => hno (h v hv)⟩
  | false =>
    simp only [hzero, Bool.not_false, iff_false, Bool.false_eq_true]
    rw [← Bool.not_eq_true, hone]
    constructor
    · intro h v hv hodd
      exact h.1 ⟨v, hv, hodd⟩
    · intro h
      exact ⟨fun ⟨v, hv, hodd⟩ => h v hv hodd, ⟨u, hu, h u hu⟩⟩

/-! ## The call -/

section
variable {ι : Type} [DecidableEq ι] {d : Dvar} {xs : List ι}

theorem domBitsMeets_of_inInt (h : d.Shape) (hint : InInt d) (hnodup : xs.Nodup) : DomBitsMeets d xs := by
  intro σ hfree
  have hle := h.le
  have hint1 := hint.1
  have hint2 := hint.2
  have hempty : visited d d.first = ∅ := by
    apply Set.eq_empty_of_forall_notMem
    rintro v ⟨u, hu, hlt, -⟩
    have := (Dvar.mem_elems.1 hu).1
    omega
  obtain ⟨fuel, marks, hrun, hlen, hmarks⟩ := markElms_elems h hint _ d.first (List.replicate xs.length 0) rfl
    h.first_mem_elems (hempty ▸ marked_replicate xs.length)
  obtain ⟨σ1, hσ1, hbits, hother⟩ := bindBits_eq hnodup hfree hlen
  refine ⟨fuel, σ1, ?_, fun i hi b => ?_, hother⟩
  · rw [cSatPropagateDomBits, int32_of_mem (by omega) (by omega), int32_of_mem (by omega) (by omega), length_map, hrun]
    exact congrArg (fun s => some (Except.ok s)) hσ1
  · obtain ⟨m, hm, hlt, hone, hzero⟩ := hmarks i hi
    obtain ⟨m', hm', hbit⟩ := hbits i hi
    obtain rfl : m = m' := Option.some.inj (hm.symm.trans hm')
    have hne : {v | ∃ u ∈ d.elems, v = |u|}.Nonempty := ⟨_, d.first, h.first_mem_elems, rfl⟩
    rw [hbit, markBit_eq_some hne hlt hone hzero]
    have hiff : ∀ v : ℤ, v.natAbs.testBit i = b ↔ (OddAt |v| i ↔ b = true) := fun v =>
      Bool.eq_iff_iff.trans (iff_congr (natAbs_testBit v i) Iff.rfl)
    constructor
    · exact fun hall v hv => (hiff v).2 (hall _ ⟨v, hv, rfl⟩)
    · rintro hall _ ⟨v, hv, rfl⟩
      exact (hiff v).1 (hall v hv)

theorem cSatPropagateDomBits_ends {fuel : ℕ} {σ σ1 : Store ι} (hnodup : xs.Nodup) (hfree : ∀ x ∈ xs, σ x = none)
    (hrun : cSatPropagateDomBits fuel d (xs.map .var) σ = some (.ok (some σ1))) :
    ∃ S : Set ℤ, (∀ v ∈ S, 0 ≤ v ∧ v < 2 ^ 31 ∨ v = -2 ^ 31) ∧
      ∀ (i : ℕ) (hi : i < xs.length) (b : Bool), σ1 xs[i] = some b ↔ ∀ v ∈ S, (OddAt v i ↔ b = true) := by
  rw [cSatPropagateDomBits, length_map, Option.map_eq_some_iff] at hrun
  obtain ⟨end1, hwalk, hend⟩ := hrun
  cases end1 with
  | error stop => simp [Except.map] at hend
  | ok marks =>
    have hbind : bindBits σ (xs.map .var) marks = some σ1 := by simpa [Except.map] using hend
    obtain ⟨S, hS, hne, hmem⟩ := markElms_marked (int32_mem _).1 (int32_mem _).2 (marked_replicate xs.length) hwalk
    obtain ⟨σ2, hσ2, hbits, -⟩ := bindBits_eq hnodup hfree hS.1
    obtain rfl : σ1 = σ2 := Option.some.inj (hbind.symm.trans hσ2)
    refine ⟨S, fun v hv => (hmem v hv).resolve_left id, fun i hi b => ?_⟩
    obtain ⟨m, hm, hlt, hone, hzero⟩ := hS.2 i hi
    obtain ⟨m', hm', hbit⟩ := hbits i hi
    obtain rfl : m = m' := Option.some.inj (hm.symm.trans hm')
    rw [hbit, markBit_eq_some hne hlt hone hzero]

theorem not_oddAt_of_lt {v : ℤ} {i j : ℕ} (h0 : 0 ≤ v) (hv : v < 2 ^ j) (hij : j ≤ i) : ¬ OddAt v i := by
  have hpow : (2 : ℤ) ^ j ≤ 2 ^ i := pow_le_pow_right₀ (by decide) hij
  rw [OddAt, Int.ediv_eq_zero_of_lt h0 (hv.trans_le hpow)]
  decide

theorem oddAt_minInt {i : ℕ} (hi : 31 ≤ i) : OddAt (-2 ^ 31) i := by
  have hdiv : (-2 ^ 31 : ℤ) / 2 ^ i = -1 := by
    apply Int.ediv_eq_neg_one_of_neg_of_le (by decide)
    rw [neg_neg]
    exact pow_le_pow_right₀ (by decide) hi
  rw [OddAt, hdiv]
  decide

/-- A vector with a bit to spare shows a value that an `int` does not hold: what is visited has the same bits in all
places from 31 on. -/
theorem inInt_of_domBitsMeets (h : d.Shape) (hnodup : xs.Nodup) (hspare : ∀ v ∈ d.elems, |v| < 2 ^ (xs.length - 1))
    (hmeets : DomBitsMeets d xs) : InInt d := by
  by_contra hint
  obtain ⟨v, hv, hbig⟩ : ∃ v ∈ d.elems, 2 ^ 31 ≤ |v| := by
    rcases not_and_or.1 hint with hf | hl
    · exact ⟨d.first, h.first_mem_elems, le_abs.2 (.inr (by omega))⟩
    · exact ⟨d.last, h.last_mem_elems, le_abs.2 (.inl (by omega))⟩
  have hvlt := hspare v hv
  rw [Int.abs_eq_natAbs] at hbig hvlt
  norm_cast at hbig hvlt
  have hne : v.natAbs ≠ 0 := by omega
  -- the highest bit of the value
  have hj31 : 31 ≤ v.natAbs.log2 := (Nat.le_log2 hne).2 hbig
  have hjlt : v.natAbs.log2 < xs.length - 1 := (Nat.log2_lt hne).2 hvlt
  have hbit : v.natAbs.testBit v.natAbs.log2 = true := Nat.testBit_log2 hne
  obtain ⟨fuel, σ1, hrun, hbits, -⟩ := hmeets (fun _ => none) fun _ _ => rfl
  obtain ⟨S, hS, hseen⟩ := cSatPropagateDomBits_ends hnodup (fun _ _ => rfl) hrun
  have hspareBit : σ1 xs[xs.length - 1] = some false := by
    refine (hbits _ _ false).2 fun u hu => ?_
    have hult := hspare u hu
    rw [Int.abs_eq_natAbs] at hult
    norm_cast at hult
    exact Nat.testBit_lt_two_pow hult
  have hnonneg : ∀ u ∈ S, 0 ≤ u ∧ u < 2 ^ 31 := by
    intro u hu
    refine (hS u hu).resolve_right ?_
    rintro rfl
    exact Bool.false_ne_true (((hseen _ _ false).1 hspareBit _ hu).1 (oddAt_minInt (by omega)))
  have hhigh : σ1 xs[v.natAbs.log2] = some false :=
    (hseen _ (by omega) false).2 fun u hu =>
      iff_of_false (not_oddAt_of_lt (hnonneg u hu).1 (hnonneg u hu).2 hj31) Bool.false_ne_true
  exact Bool.false_ne_true (((hbits _ (by omega) false).1 hhigh v hv).symm.trans hbit)

end

/-- The call does what it is for on all vectors exactly when an `int` holds all values of the domain; on a vector with a bit
to spare nothing else will do. -/
theorem cSatPropagateDomBits_iff {d : Dvar} (h : d.Shape) (hfirst : bpIn1WIntRange d.first)
    (hlast : bpIn1WIntRange d.last) :
    ((∀ xs : List ℕ, xs.Nodup → xs.length ≤ 64 → DomBitsMeets d xs) ↔ InInt d) ∧
      ∀ xs : List ℕ, xs.Nodup → xs.length ≤ 64 → (∀ v ∈ d.elems, |v| < 2 ^ (xs.length - 1)) →
        (DomBitsMeets d xs ↔ InInt d) := by
  have hone : ∀ xs : List ℕ, xs.Nodup → (∀ v ∈ d.elems, |v| < 2 ^ (xs.length - 1)) → (DomBitsMeets d xs ↔ InInt d) :=
    fun xs hnodup hspare => ⟨inInt_of_domBitsMeets h hnodup hspare, fun hint => domBitsMeets_of_inInt h hint hnodup⟩
  refine ⟨⟨fun hall => ?_, fun hint xs hnodup _ => domBitsMeets_of_inInt h hint hnodup⟩, fun xs hnodup _ => hone xs hnodup⟩
  refine (hone (List.range 64) nodup_range fun v hv => ?_).1
    (hall (List.range 64) nodup_range (le_of_eq length_range))
  have hmem := (Dvar.mem_elems.1 hv).1
  have h1 := hfirst.1
  have h2 := hlast.2
  rw [length_range, abs_lt]
  simp only [bpMinint1W, bpMaxint1W] at h1 h2
  omega

theorem cSatPropagateDomBits_minus_three_five :
    ((∀ xs : List ℕ, xs.Nodup → xs.length ≤ 64 → DomBitsMeets ⟨.susp, .it, -3, 5, 9, false⟩ xs) ↔
        InInt ⟨.susp, .it, -3, 5, 9, false⟩) ∧
      (DomBitsMeets ⟨.susp, .it, -3, 5, 9, false⟩ (List.range 4) ↔ InInt ⟨.susp, .it, -3, 5, 9, false⟩) := by
  have h := cSatPropagateDomBits_iff (d := ⟨.susp, .it, -3, 5, 9, false⟩)
    ⟨by decide, rfl, rfl, fun b hb => DvType.noConfusion hb⟩ ⟨by decide, by decide⟩ ⟨by decide, by decide⟩
  refine ⟨h.1, h.2 (List.range 4) nodup_range (by decide) fun v hv => ?_⟩
  have hmem := (Dvar.mem_elems.1 hv).1
  rw [length_range, abs_lt]
  dsimp only at hmem
  omega

/-- The values 2^32 and 2^32+1 are taken for 0 and 1, so bit 32 is bound to 0. -/
theorem cSatPropagateDomBits_two_pow_32 :
    ((cSatPropagateDomBits 2 ⟨.susp, .it, 2 ^ 32, 2 ^ 32 + 1, 2, false⟩ ((List.range 34).map .var) fun _ => none).map
        fun ends => ends.map fun left => left.map fun σ => σ 32) = some (.ok (some (some false))) ∧
      (2 ^ 32 : ℤ).natAbs.testBit 32 = true ∧
        ¬ DomBitsMeets ⟨.susp, .it, 2 ^ 32, 2 ^ 32 + 1, 2, false⟩ (List.range 34) := by
  refine ⟨by decide +kernel, by decide, fun hmeets => ?_⟩
  have hint : InInt ⟨.susp, .it, 2 ^ 32, 2 ^ 32 + 1, 2, false⟩ := by
    apply inInt_of_domBitsMeets ⟨by decide, rfl, rfl, fun b hb => DvType.noConfusion hb⟩ nodup_range ?_ hmeets
    intro v hv
    have hmem := (Dvar.mem_elems.1 hv).1
    rw [length_range, abs_lt]
    dsimp only at hmem
    omega
  exact absurd hint.2 (by decide)

end Picat.Boolean
