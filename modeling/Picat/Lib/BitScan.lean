import Mathlib.Tactic

/-!
# Scanning and counting in sets of bits

A list of machine words read as one long row of bits, and the three questions a scan asks of a
decidable set of integers.

* `members p a b` collects the elements of `p` between `a` and `b`; cutting the interval at a point
  or at one end splits the collection and its size.
-/

namespace BitScan

open Finset

/-! ## Rows of bits -/

variable {o : ℕ}

variable {i : ℕ}

section Row
variable {n : ℕ}

/-- Bit `i` of a list of `n`-bit words, the least significant bit of the first word first. -/
def bitAt (ws : List (BitVec n)) (i : ℕ) : Bool := (ws[i / n]?.getD 0#n).getLsbD (i % n)

@[simp] theorem bitAt_nil (i : ℕ) : bitAt ([] : List (BitVec n)) i = false := by simp [bitAt]

theorem bitAt_word {ws : List (BitVec n)} {k : ℕ} {w : BitVec n} (hw : ws[k]? = some w) (ho : o < n) :
    bitAt ws (n * k + o) = w.getLsbD o := by
  have hk : (n * k + o) / n = k := by
    rw [Nat.mul_add_div (by omega), Nat.div_eq_of_lt ho, Nat.add_zero]
  rw [bitAt, hk, hw, Nat.mul_add_mod, Nat.mod_eq_of_lt ho, Option.getD_some]

theorem bitAt_cons_lt (w : BitVec n) (ws : List (BitVec n)) (ho : o < n) : bitAt (w :: ws) o = w.getLsbD o := by
  simpa using bitAt_word (show (w :: ws)[0]? = some w from rfl) ho

theorem bitAt_drop (hn : 0 < n) (ws : List (BitVec n)) (k i : ℕ) : bitAt (ws.drop k) i = bitAt ws (n * k + i) := by
  simp only [bitAt, List.getElem?_drop, Nat.mul_add_div hn, Nat.mul_add_mod]

theorem bitAt_cons_add (hn : 0 < n) (w : BitVec n) (ws : List (BitVec n)) (i : ℕ) :
    bitAt (w :: ws) (n + i) = bitAt ws i := by
  simpa using (bitAt_drop hn (w :: ws) 1 i).symm

theorem lt_of_bitAt {ws : List (BitVec n)} (h : bitAt ws i = true) : i < n * ws.length := by
  by_contra hlt
  rcases Nat.eq_zero_or_pos n with rfl | hn
  · simp [bitAt] at h
  have hlen : ws.length ≤ i / n := (Nat.le_div_iff_mul_le hn).2 (by rw [Nat.mul_comm]; omega)
  simp [bitAt, List.getElem?_eq_none hlen] at h

theorem bitAt_replicate (hn : 0 < n) (k i : ℕ) :
    bitAt (List.replicate k (BitVec.allOnes n)) i = decide (i < n * k) := by
  have hdiv : i / n < k ↔ i < n * k := by rw [Nat.div_lt_iff_lt_mul hn, Nat.mul_comm]
  by_cases hlt : i < n * k
  · simp [bitAt, hdiv, hlt, Nat.mod_lt i hn]
  · simp [bitAt, hdiv, hlt]

theorem bitAt_replicate_zero (k i : ℕ) : bitAt (List.replicate k 0#n) i = false := by
  rw [bitAt, List.getElem?_replicate]
  split_ifs <;> simp

theorem bitAt_set {ws : List (BitVec n)} {k : ℕ} (hk : k < ws.length) (w : BitVec n) (i : ℕ) :
    bitAt (ws.set k w) i = if i / n = k then w.getLsbD (i % n) else bitAt ws i := by
  unfold bitAt
  split_ifs with h
  · rw [h, List.getElem?_set_self hk, Option.getD_some]
  · rw [List.getElem?_set_ne (Ne.symm h)]

theorem and_shiftLeft_eq_zero {w : BitVec n} :
    w &&& BitVec.allOnes n <<< o = 0#n ↔ ∀ i, o ≤ i → w.getLsbD i = false := by
  refine ⟨fun h i hi => ?_, fun h => ?_⟩
  · rcases Nat.lt_or_ge i n with hin | hin
    · have := congrArg (fun v => v.getLsbD i) h
      have hio : ¬ i < o := by omega
      simpa [hin, hio, BitVec.getLsbD_and, BitVec.getLsbD_shiftLeft, show i - o < n by omega] using this
    · exact BitVec.getLsbD_of_ge _ _ hin
  · apply BitVec.eq_of_getLsbD_eq
    intro i hi
    rcases Nat.lt_or_ge i o with hio | hio
    · simp [hio]
    · simp [h i hio]

theorem and_ushiftRight_eq_zero {w : BitVec n} (ho : o < n) :
    w &&& BitVec.allOnes n >>> (n - 1 - o) = 0#n ↔ ∀ i, i ≤ o → w.getLsbD i = false := by
  refine ⟨fun h i hi => ?_, fun h => ?_⟩
  · have := congrArg (fun v => v.getLsbD i) h
    have hin : n - 1 - o + i < n := by omega
    rw [BitVec.getLsbD_and, BitVec.getLsbD_ushiftRight, BitVec.getLsbD_allOnes, decide_eq_true hin,
      Bool.and_true] at this
    simpa using this
  · apply BitVec.eq_of_getLsbD_eq
    intro i hi
    rcases Nat.lt_or_ge o i with hio | hio
    · simp [BitVec.getLsbD_ushiftRight, show ¬ n - 1 - o + i < n by omega]
    · simp [h i hio]

theorem and_eq_zero {w v : BitVec n} : w &&& v = 0#n ↔ ∀ i < n, ¬ (w.getLsbD i = true ∧ v.getLsbD i = true) := by
  refine ⟨fun h i _ hi => ?_, fun h => ?_⟩
  · have := congrArg (fun u => u.getLsbD i) h
    simp [BitVec.getLsbD_and, hi.1, hi.2] at this
  · apply BitVec.eq_of_getLsbD_eq
    intro i hi
    rw [BitVec.getLsbD_and, BitVec.getLsbD_zero, ← Bool.not_eq_true, Bool.and_eq_true]
    exact h i hi

theorem not_and_eq_zero {w v : BitVec n} : ~~~w &&& v = 0#n ↔ ∀ i < n, v.getLsbD i = true → w.getLsbD i = true := by
  rw [and_eq_zero]
  refine forall_congr' fun i => forall_congr' fun hi => ?_
  rw [BitVec.getLsbD_not, decide_eq_true hi, Bool.true_and, Bool.not_eq_true', not_and', Bool.not_eq_false]

section
variable {w : BitVec n}

theorem getLsbD_and_shiftLeft (hi : i < n) :
    (w &&& BitVec.allOnes n <<< o).getLsbD i = (w.getLsbD i && decide (o ≤ i)) := by
  rw [BitVec.getLsbD_and, BitVec.getLsbD_shiftLeft]
  congr 1
  rcases Nat.lt_or_ge i o with hio | hio
  · simp [hio]
  · simp [hi, hio, show ¬ i < o by omega, show i - o < n by omega]

theorem getLsbD_and_ushiftRight (ho : o < n) :
    (w &&& BitVec.allOnes n >>> (n - o - 1)).getLsbD i = (w.getLsbD i && decide (i ≤ o)) := by
  rw [BitVec.getLsbD_and, BitVec.getLsbD_ushiftRight, BitVec.getLsbD_allOnes]
  congr 2
  exact propext ⟨fun h => by omega, fun h => by omega⟩

theorem and_one_shiftLeft_eq_zero (ho : o < n) : w &&& 1#n <<< o = 0#n ↔ w.getLsbD o = false := by
  refine ⟨fun h => ?_, fun h => ?_⟩
  · have := congrArg (fun v => v.getLsbD o) h
    simpa [BitVec.getLsbD_and, BitVec.getLsbD_shiftLeft, ho, show 0 < n by omega] using this
  · apply BitVec.eq_of_getLsbD_eq
    intro i hi
    rcases Nat.lt_trichotomy i o with hio | rfl | hio
    · simp [hio]
    · simp [h]
    · simp [BitVec.getLsbD_one, show ¬ i - o = 0 by omega]

theorem one_shiftLeft_and_eq_self (ho : o < n) : 1#n <<< o &&& w = 1#n <<< o ↔ w.getLsbD o = true := by
  refine ⟨fun h => ?_, fun h => ?_⟩
  · have := congrArg (fun v => v.getLsbD o) h
    simpa [BitVec.getLsbD_and, BitVec.getLsbD_shiftLeft, ho, show 0 < n by omega] using this
  · apply BitVec.eq_of_getLsbD_eq
    intro i hi
    rcases Nat.lt_trichotomy i o with hio | rfl | hio
    · simp [hio]
    · simp [h]
    · simp [BitVec.getLsbD_one, show ¬ i - o = 0 by omega]

theorem getLsbD_and_not_one_shiftLeft (hi : i < n) :
    (w &&& ~~~(1#n <<< o)).getLsbD i = (w.getLsbD i && !decide (i = o)) := by
  rcases Nat.lt_trichotomy i o with hio | rfl | hio
  · simp [hio, hi, show i ≠ o by omega]
  · simp [hi]
  · simp [hi, show ¬ i - o = 0 by omega, show i ≠ o by omega]

theorem getLsbD_or_one_shiftLeft (hi : i < n) : (w ||| 1#n <<< o).getLsbD i = (w.getLsbD i || decide (i = o)) := by
  rw [BitVec.getLsbD_or, BitVec.getLsbD_shiftLeft, BitVec.getLsbD_one, decide_eq_true hi]
  congr 1
  by_cases hio : i = o
  · simp [hio, show 0 < n by omega]
  · simp only [hio, decide_false]
    by_cases hlt : i < o
    · simp [hlt]
    · simp [show ¬ i - o = 0 by omega]

end

end Row

/-! ## The next and the previous element -/

section Scan
variable {p : ℤ → Bool} {a b c e v : ℤ}

/-- `e` is the first element of `p` from `a` upwards. -/
def NextIn (p : ℤ → Bool) (a e : ℤ) : Prop := IsLeast {x | a ≤ x ∧ p x = true} e

/-- `e` is the last element of `p` from `a` downwards. -/
def PrevIn (p : ℤ → Bool) (a e : ℤ) : Prop := IsGreatest {x | x ≤ a ∧ p x = true} e

theorem NextIn.le (h : NextIn p a e) : a ≤ e := h.1.1

theorem NextIn.mem (h : NextIn p a e) : p e = true := h.1.2

theorem NextIn.le_of_mem (h : NextIn p a e) (hax : a ≤ v) (hv : p v = true) : e ≤ v := h.2 ⟨hax, hv⟩

theorem PrevIn.le (h : PrevIn p a e) : e ≤ a := h.1.1

theorem PrevIn.mem (h : PrevIn p a e) : p e = true := h.1.2

theorem PrevIn.le_of_mem (h : PrevIn p a e) (hax : v ≤ a) (hv : p v = true) : v ≤ e := h.2 ⟨hax, hv⟩

theorem NextIn.self (h : p a = true) : NextIn p a a := ⟨⟨le_refl a, h⟩, fun _ hx => hx.1⟩

theorem PrevIn.self (h : p a = true) : PrevIn p a a := ⟨⟨le_refl a, h⟩, fun _ hx => hx.1⟩

theorem PrevIn.pred_of_not (h : PrevIn p a e) (ha : p a = false) : PrevIn p (a - 1) e := by
  refine ⟨⟨?_, h.mem⟩, fun x hx => h.le_of_mem (by have := hx.1; omega) hx.2⟩
  rcases h.le.lt_or_eq with hlt | rfl
  · omega
  · rw [h.mem] at ha
    contradiction

theorem NextIn.of_gap (h : NextIn p a e) (hac : a ≤ c) (hgap : ∀ x, a ≤ x → x < c → p x = false) : NextIn p c e := by
  refine ⟨⟨?_, h.mem⟩, fun x hx => h.le_of_mem (hac.trans hx.1) hx.2⟩
  by_contra hlt
  have := hgap e h.le (by omega)
  rw [h.mem] at this
  contradiction

theorem PrevIn.of_gap (h : PrevIn p a e) (hca : c ≤ a) (hgap : ∀ x, c < x → x ≤ a → p x = false) : PrevIn p c e := by
  refine ⟨⟨?_, h.mem⟩, fun x hx => h.le_of_mem (hx.1.trans hca) hx.2⟩
  by_contra hlt
  have := hgap e (by omega) h.le
  rw [h.mem] at this
  contradiction

end Scan

/-! ## A row that holds a set -/

section Holds
variable {n : ℕ} {ws : List (BitVec n)} {w : BitVec n} {p : ℤ → Bool} {x₀ : ℤ}

/-- The row holds `p` from `x₀` on: bit `i` is the element `x₀ + i`. -/
def Holds (ws : List (BitVec n)) (x₀ : ℤ) (p : ℤ → Bool) : Prop := ∀ i : ℕ, p (x₀ + i) = bitAt ws i

theorem Holds.word (h : Holds (w :: ws) x₀ p) (ho : o < n) : p (x₀ + o) = w.getLsbD o := by
  rw [h o, bitAt_cons_lt w ws ho]

theorem Holds.tail (hn : 0 < n) (h : Holds (w :: ws) x₀ p) : Holds ws (x₀ + n) p := by
  intro i
  rw [← bitAt_cons_add hn w ws i, ← h (n + i)]
  push_cast
  ring_nf

theorem Holds.drop (hn : 0 < n) (h : Holds ws x₀ p) (k : ℕ) : Holds (ws.drop k) (x₀ + n * k) p := by
  intro i
  rw [bitAt_drop hn ws k i, ← h (n * k + i)]
  push_cast
  ring_nf

end Holds

/-! ## The elements of an interval -/

section Members
variable {p q : ℤ → Bool} {a b c e v : ℤ}

/-- The elements of `p` from `a` to `b`. -/
noncomputable def members (p : ℤ → Bool) (a b : ℤ) : Finset ℤ := (Finset.Icc a b).filter (fun x => p x = true)

@[simp] theorem mem_members : v ∈ members p a b ↔ (a ≤ v ∧ v ≤ b) ∧ p v = true := by
  simp [members]

theorem members_of_lt (h : b < a) : members p a b = ∅ := by
  simp [members, Finset.Icc_eq_empty_of_lt h]

theorem members_congr (h : ∀ x, a ≤ x → x ≤ b → p x = q x) : members p a b = members q a b := by
  ext x
  simp only [mem_members]
  exact and_congr_right fun hx => by rw [h x hx.1 hx.2]

theorem members_true (h : ∀ x, a ≤ x → x ≤ b → p x = true) : members p a b = Finset.Icc a b := by
  ext x
  simp only [mem_members, mem_Icc, and_iff_left_iff_imp]
  exact fun hx => h x hx.1 hx.2

theorem exists_nextIn (hv : p v = true) (hav : a ≤ v) : ∃ e, NextIn p a e ∧ e ≤ v := by
  have hne : (members p a v).Nonempty := ⟨v, by simp [hv, hav]⟩
  have hmin := mem_members.1 ((members p a v).min'_mem hne)
  refine ⟨(members p a v).min' hne, ⟨⟨hmin.1.1, hmin.2⟩, fun x hx => ?_⟩, hmin.1.2⟩
  rcases le_or_gt x v with hxv | hxv
  · exact Finset.min'_le _ _ (by simp [hx.1, hx.2, hxv])
  · exact hmin.1.2.trans hxv.le

theorem exists_prevIn (hv : p v = true) (hva : v ≤ a) : ∃ e, PrevIn p a e ∧ v ≤ e := by
  have hne : (members p v a).Nonempty := ⟨v, by simp [hv, hva]⟩
  have hmax := mem_members.1 ((members p v a).max'_mem hne)
  refine ⟨(members p v a).max' hne, ⟨⟨hmax.1.2, hmax.2⟩, fun x hx => ?_⟩, hmax.1.1⟩
  rcases le_or_gt v x with hvx | hvx
  · exact le_max' _ _ (by simp [hx.1, hx.2, hvx])
  · exact hvx.le.trans hmax.1.1

theorem NextIn.members_eq (h : NextIn p a e) : members p e b = members p a b := by
  ext x
  simp only [mem_members]
  exact ⟨fun hx => ⟨⟨h.le.trans hx.1.1, hx.1.2⟩, hx.2⟩, fun hx => ⟨⟨h.le_of_mem hx.1.1 hx.2, hx.1.2⟩, hx.2⟩⟩

theorem PrevIn.members_eq (h : PrevIn p b e) : members p a e = members p a b := by
  ext x
  simp only [mem_members]
  exact ⟨fun hx => ⟨⟨hx.1.1, hx.1.2.trans h.le⟩, hx.2⟩, fun hx => ⟨⟨hx.1.1, h.le_of_mem hx.1.2 hx.2⟩, hx.2⟩⟩

theorem members_append (hac : a ≤ c) (hcb : c ≤ b + 1) :
    (members p a (c - 1)).card + (members p c b).card = (members p a b).card := by
  rw [← card_union_of_disjoint]
  · congr 1
    ext x
    simp only [mem_union, mem_members, ← or_and_right]
    exact and_congr_left fun _ => by omega
  · rw [disjoint_left]
    intro x hx hx'
    have := (mem_members.1 hx).1.2
    have := (mem_members.1 hx').1.1
    omega

theorem card_members_self : (members p a a).card = (p a).toNat := by
  cases h : p a <;> simp [members, filter_singleton, h]

theorem card_members_cons (hab : a ≤ b) : (members p a b).card = (p a).toNat + (members p (a + 1) b).card := by
  have h := members_append (p := p) (show a ≤ a + 1 by omega) (show a + 1 ≤ b + 1 by omega)
  rw [show a + 1 - 1 = a by ring, card_members_self] at h
  exact h.symm

theorem card_members_snoc (hab : a ≤ b) : (members p a b).card = (members p a (b - 1)).card + (p b).toNat := by
  have h := members_append (p := p) hab (show b ≤ b + 1 by omega)
  rw [card_members_self] at h
  exact h.symm

end Members

end BitScan
