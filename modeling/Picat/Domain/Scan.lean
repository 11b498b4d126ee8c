import Picat.Domain.Dvar

/-!
# What the readers of a domain return

The scans, the test and the count of `domain.c` against the content of the vector they read.

* `domainLoop`, `domainLoop_from` : a loop over the elements goes through all of them.
-/

namespace Picat

open BitScan List

theorem wordOffset_eq {b : BitVector} {x : ℤ} (hlow : b.low ≤ x) (hup : x < b.low + 64 * b.words.length) :
    ∃ w wPtr offset, wordOffset b x = .ok (w, wPtr, offset) ∧ b.words[wPtr]? = some w ∧ offset < 64 ∧
      b.words.drop wPtr = w :: b.words.drop (wPtr + 1) ∧ x = b.low + 64 * wPtr + offset := by
  have hlt : (x - b.low).toNat / 64 < b.words.length := by omega
  have hget : b.words[(x - b.low).toNat / 64]? = some b.words[(x - b.low).toNat / 64] :=
    List.getElem?_eq_getElem hlt
  refine ⟨b.words[(x - b.low).toNat / 64], (x - b.low).toNat / 64, (x - b.low).toNat % 64, ?_, hget,
    Nat.mod_lt _ (by omega), drop_eq_getElem_cons hlt, by omega⟩
  simp only [wordOffset, show ¬ x - b.low < 0 by omega, if_false, hget]

theorem wordOffset_of_not_mem {b : BitVector} {x : ℤ} (h : x < b.low ∨ b.low + 64 * b.words.length ≤ x) :
    wordOffset b x = .error .oob := by
  unfold wordOffset
  split_ifs with hneg
  · rfl
  · have hget : b.words[(x - b.low).toNat / 64]? = none := List.getElem?_eq_none (by omega)
    simp only [hget]

/-! ## The scans -/

theorem getLsbD_ff (i : ℕ) : (0xff#64).getLsbD i = decide (i < 8) := by
  rw [BitVec.getLsbD_ofNat, show (0xff : ℕ) = 2 ^ 8 - 1 by norm_num, Nat.testBit_two_pow_sub_one]
  rcases Nat.lt_or_ge i 8 with hi | hi
  · simp [hi, show i < 64 by omega]
  · simp [show ¬ i < 8 by omega]

variable {o offset : ℕ} {w : BitVec 64} {p : ℤ → Bool} {ws : List (BitVec 64)}

theorem and_ff_eq_zero {w : BitVec 64} {o : ℕ} :
    w &&& 0xff#64 <<< o = 0 ↔ ∀ i, o ≤ i → i < o + 8 → w.getLsbD i = false := by
  refine ⟨fun h i hoi hio => ?_, fun h => ?_⟩
  · rcases Nat.lt_or_ge i 64 with hi | hi
    · have := congrArg (fun v => v.getLsbD i) h
      have hni : ¬ i < o := by omega
      rw [BitVec.getLsbD_and, BitVec.getLsbD_shiftLeft, getLsbD_ff, decide_eq_true hi, decide_eq_false hni,
        decide_eq_true (show i - o < 8 by omega)] at this
      simpa using this
    · exact BitVec.getLsbD_of_ge _ _ hi
  · apply BitVec.eq_of_getLsbD_eq
    intro i hi
    rcases Nat.lt_or_ge i o with hio | hio
    · simp [hio]
    rcases Nat.lt_or_ge i (o + 8) with hio8 | hio8
    · simp [h i hio hio8]
    · simp [getLsbD_ff, show ¬ i - o < 8 by omega]

theorem nextNonzeroWord_eq {x₀ e : ℤ} (hp : Holds ws x₀ p) (he : NextIn p x₀ e) :
    ∃ (w : BitVec 64) (x₁ : ℤ) (o : ℕ), nextNonzeroWord ws x₀ = .ok (w, x₁) ∧ (∀ i : ℕ, i < 64 → p (x₁ + i) = w.getLsbD i) ∧
      NextIn p x₁ e ∧ o < 64 ∧ e = x₁ + o := by
  induction ws generalizing x₀ with
  | nil =>
    exfalso
    have hmem := he.mem
    rw [show e = x₀ + (e - x₀).toNat by have := he.le; omega, hp] at hmem
    simp at hmem
  | cons w ws ih =>
    unfold nextNonzeroWord
    split_ifs with hw
    · have hgap : ∀ x, x₀ ≤ x → x < x₀ + 64 → p x = false := by
        intro x hx hx64
        rw [show x = x₀ + (x - x₀).toNat by omega, hp.word (by omega), hw]
        simp
      exact ih (hp.tail (by omega)) (he.of_gap (by omega) hgap)
    · have hlt : e < x₀ + 64 := by
        by_contra hge
        refine hw (BitVec.eq_of_getLsbD_eq fun i hi => ?_)
        rw [← hp.word hi, BitVec.ofNat_eq_ofNat, BitVec.getLsbD_zero, Bool.eq_false_iff]
        intro hmem
        have := he.le_of_mem (by omega) hmem
        omega
      have hle := he.le
      exact ⟨w, x₀, (e - x₀).toNat, rfl, fun i hi => hp.word hi, he, by omega, by omega⟩

theorem nextInWord_eq {x₀ e : ℤ} (hp : Holds (w :: ws) x₀ p) (ho : offset < 64) (he : NextIn p (x₀ + offset) e) :
    ∃ (w' : BitVec 64) (x₁ : ℤ) (offset' o : ℕ),
      nextInWord (x₀ + offset) w ws offset = .ok (x₁ + offset', w', offset') ∧
      (∀ i : ℕ, i < 64 → p (x₁ + i) = w'.getLsbD i) ∧ NextIn p (x₁ + offset') e ∧ o < 64 ∧ e = x₁ + o := by
  unfold nextInWord
  split_ifs with hw
  · have hclear := and_shiftLeft_eq_zero.1 hw
    have hgap : ∀ x, x₀ + offset ≤ x → x < x₀ + (64 : ℕ) → p x = false := by
      intro x hx hx64
      rw [show x = x₀ + (x - x₀).toNat by omega, hp.word (by omega)]
      exact hclear _ (by omega)
    obtain ⟨w', x₁, o, hnext, hbits, he', ho', heo⟩ :=
      nextNonzeroWord_eq (hp.tail (by omega)) (he.of_gap (by omega) hgap)
    refine ⟨w', x₁, 0, o, ?_, hbits, by simpa using he', ho', heo⟩
    rw [show x₀ + (offset : ℤ) + 64 - offset = x₀ + (64 : ℕ) by push_cast; ring, hnext]
    simp [bind, Except.bind, pure, Except.pure]
  · have hlt : e < x₀ + 64 := by
      by_contra hge
      refine hw (and_shiftLeft_eq_zero.2 fun i hi => ?_)
      rcases Nat.lt_or_ge i 64 with hi64 | hi64
      · rw [← hp.word hi64, Bool.eq_false_iff]
        intro hmem
        have := he.le_of_mem (by omega) hmem
        omega
      · exact BitVec.getLsbD_of_ge _ _ hi64
    have hle := he.le
    exact ⟨w, x₀, offset, (e - x₀).toNat, rfl, fun i hi => hp.word hi, he, by omega, by omega⟩

theorem nextByte_eq (elm : ℤ) (hoo : offset ≤ o) (ho : w.getLsbD o = true)
    (hclear : ∀ i, offset ≤ i → i < o → w.getLsbD i = false) :
    ∀ fuel, o < offset + 8 * fuel → ∃ offset' : ℕ, nextByte fuel elm w offset = .ok (elm + (offset' - offset), offset') ∧
      offset ≤ offset' ∧ offset' ≤ o ∧ o < offset' + 8 := by
  intro fuel
  induction fuel generalizing offset elm with
  | zero =>
    intro hlt
    omega
  | succ fuel ih =>
    intro hlt
    unfold nextByte
    split_ifs with hw
    · have hge : offset + 8 ≤ o := by
        by_contra hlt8
        rw [and_ff_eq_zero.1 hw o hoo (by omega)] at ho
        contradiction
      obtain ⟨offset', hnext, h1, h2, h3⟩ :=
        @ih (offset + 8) (elm + 8) hge (fun i hi hio => hclear i (by omega) hio) (by omega)
      exact ⟨offset', by rw [hnext]; push_cast; ring_nf, by omega, h2, h3⟩
    · refine ⟨offset, by simp, le_refl _, hoo, ?_⟩
      by_contra hge
      exact hw (and_ff_eq_zero.2 fun i hi hio => hclear i hi (by omega))

theorem nextBit_eq (elm : ℤ) (hoo : offset ≤ o) (ho64 : o < 64)
    (ho : w.getLsbD o = true) (hclear : ∀ i, offset ≤ i → i < o → w.getLsbD i = false) :
    ∀ fuel, o < offset + fuel → nextBit fuel elm w offset = .ok (elm + (o - offset)) := by
  intro fuel
  induction fuel generalizing offset elm with
  | zero =>
    intro hlt
    omega
  | succ fuel ih =>
    intro hlt
    unfold nextBit
    split_ifs with hw
    · have hne : offset ≠ o := by
        rintro rfl
        rw [(and_one_shiftLeft_eq_zero ho64).1 hw] at ho
        contradiction
      rw [@ih (offset + 1) (elm + 1) (by omega) (fun i hi hio => hclear i (by omega) hio) (by omega)]
      push_cast
      ring_nf
    · have heq : offset = o := by
        by_contra hne
        exact hw ((and_one_shiftLeft_eq_zero (by omega)).2 (hclear offset (le_refl _) (by omega)))
      rw [heq]
      simp

theorem nextInElm_eq {x₁ e : ℤ}
    (hbits : ∀ i : ℕ, i < 64 → p (x₁ + i) = w.getLsbD i) (he : NextIn p (x₁ + offset) e) (ho : o < 64)
    (heo : e = x₁ + o) : nextInElm (x₁ + offset) w offset = .ok e := by
  subst heo
  have hle := he.le
  have hset : w.getLsbD o = true := by
    rw [← hbits o ho]
    exact he.mem
  have hclear : ∀ i, offset ≤ i → i < o → w.getLsbD i = false := by
    intro i hi hio
    rw [← hbits i (by omega), Bool.eq_false_iff]
    intro hmem
    have := he.le_of_mem (by omega) hmem
    omega
  obtain ⟨offset', hbyte, h1, h2, h3⟩ := nextByte_eq (x₁ + offset) (by omega) hset hclear 64 (by omega)
  have hbit := nextBit_eq (x₁ + offset + (offset' - offset)) h2 ho hset
    (fun i hi hio => hclear i (by omega) hio) 64 (by omega)
  simp only [nextInElm, hbyte, bind, Except.bind]
  rw [hbit]
  congr 1
  omega

theorem bvNextIn_eq {b : BitVector} {x e : ℤ} (hlow : b.low ≤ x) (he : NextIn b.has x e) : bvNextIn b x = .ok e := by
  have hlt := b.lt_of_has he.mem
  have hle := he.le
  obtain ⟨w, wPtr, offset, hword, -, ho, hdrop, hx⟩ := wordOffset_eq hlow (hle.trans_lt hlt)
  have hp := b.holds.drop (by omega) wPtr
  rw [hdrop] at hp
  obtain ⟨w', x₁, offset', o, hnext, hbits, he', ho', heo⟩ := nextInWord_eq hp ho (by simpa [← hx] using he)
  have helm := nextInElm_eq hbits he' ho' heo
  simp only [bvNextIn, hword, bind, Except.bind]
  rw [show x = b.low + ((64 : ℕ) : ℤ) * wPtr + offset by simpa using hx, hnext]
  exact helm

theorem nextNonzeroWord_oob (x₀ : ℤ) (h : ∀ i, bitAt ws i = false) : nextNonzeroWord ws x₀ = .error .oob := by
  induction ws generalizing x₀ with
  | nil => rfl
  | cons w ws ih =>
    have hw : w = 0 := BitVec.eq_of_getLsbD_eq fun i hi => by
      rw [← bitAt_cons_lt w ws hi, h, BitVec.ofNat_eq_ofNat, BitVec.getLsbD_zero]
    unfold nextNonzeroWord
    rw [if_pos hw]
    exact ih _ fun i => by rw [← bitAt_cons_add (by omega) w ws, h]

theorem bvNextIn_oob {b : BitVector} {x : ℤ} (h : ∀ e, x ≤ e → b.has e = false) : bvNextIn b x = .error .oob := by
  by_cases hmem : b.low ≤ x ∧ x < b.low + 64 * b.words.length
  · obtain ⟨w, wPtr, offset, hword, -, ho, hdrop, hx⟩ := wordOffset_eq hmem.1 hmem.2
    have hp := b.holds.drop (by omega) wPtr
    rw [hdrop] at hp
    have hclear : ∀ i, offset ≤ i → bitAt (w :: b.words.drop (wPtr + 1)) i = false := fun i hi => by
      rw [← hp i]
      exact h _ (by push_cast; omega)
    have hw : w &&& maskFf <<< offset = 0 := by
      apply and_shiftLeft_eq_zero.2
      intro i hi
      rcases Nat.lt_or_ge i 64 with hi64 | hi64
      · rw [← bitAt_cons_lt w (b.words.drop (wPtr + 1)) hi64, hclear i hi]
      · exact BitVec.getLsbD_of_ge _ _ hi64
    have hrest : ∀ i, bitAt (b.words.drop (wPtr + 1)) i = false := fun i => by
      rw [← bitAt_cons_add (by omega) w, hclear _ (by omega)]
    simp only [bvNextIn, hword, nextInWord, if_pos hw, nextNonzeroWord_oob _ hrest, bind, Except.bind]
  · simp only [bvNextIn, wordOffset_of_not_mem (show x < b.low ∨ b.low + 64 * b.words.length ≤ x by omega),
      bind, Except.bind]

theorem prevInWord_eq {x₀ e : ℤ} (hp : Holds ws x₀ p) (hlow : x₀ ≤ e) :
    ∀ (wPtr : ℕ) (w : BitVec 64) (offset : ℕ), ws[wPtr]? = some w → offset < 64 → PrevIn p (x₀ + 64 * wPtr + offset) e →
      ∃ (w' : BitVec 64) (x₁ : ℤ) (offset' o : ℕ),
        prevInWord ws wPtr (x₀ + 64 * wPtr + offset) w offset (maskFf >>> (64 - 1 - offset)) =
          .ok (x₁ + offset', w', offset') ∧
        (∀ i : ℕ, i < 64 → p (x₁ + i) = w'.getLsbD i) ∧ PrevIn p (x₁ + offset') e ∧ offset' < 64 ∧ e = x₁ + o := by
  intro wPtr
  induction wPtr with
  | zero =>
    intro w offset hw ho he
    have hbits : ∀ i : ℕ, i < 64 → p (x₀ + i) = w.getLsbD i := fun i hi => by
      simpa [hp i] using bitAt_word hw hi
    have hle := he.le
    unfold prevInWord
    rw [if_neg]
    · exact ⟨w, x₀, offset, (e - x₀).toNat, by simp, hbits, by simpa using he, ho, by omega⟩
    · intro hzero
      have hmem := he.mem
      rw [show e = x₀ + (e - x₀).toNat by omega, hbits _ (by omega),
        (and_ushiftRight_eq_zero ho).1 hzero _ (by omega)] at hmem
      contradiction
  | succ wPtr ih =>
    intro w offset hw ho he
    have hbits : ∀ i : ℕ, i < 64 → p (x₀ + 64 * (wPtr + 1 : ℕ) + i) = w.getLsbD i := fun i hi => by
      rw [← bitAt_word hw hi, ← hp]
      push_cast
      ring_nf
    have hle := he.le
    unfold prevInWord
    split_ifs with hzero
    · have hgap : ∀ x, x₀ + 64 * wPtr + (63 : ℕ) < x → x ≤ x₀ + 64 * (wPtr + 1 : ℕ) + offset → p x = false := by
        intro x hx hxo
        rw [show x = x₀ + 64 * (wPtr + 1 : ℕ) + (x - (x₀ + 64 * (wPtr + 1 : ℕ))).toNat by push_cast at *; omega,
          hbits _ (by push_cast at *; omega)]
        exact (and_ushiftRight_eq_zero ho).1 hzero _ (by push_cast at *; omega)
      have hlen : wPtr + 1 < ws.length := by
        by_contra hge
        rw [List.getElem?_eq_none (by omega)] at hw
        contradiction
      have hget : ws[wPtr]? = some ws[wPtr] := List.getElem?_eq_getElem (by omega)
      obtain ⟨w', x₁, offset', o, hprev, hbits', he', ho', heo⟩ :=
        ih ws[wPtr] 63 hget (by omega) (he.of_gap (by push_cast; omega) hgap)
      refine ⟨w', x₁, offset', o, ?_, hbits', he', ho', heo⟩
      rw [show x₀ + 64 * ((wPtr + 1 : ℕ) : ℤ) + offset - offset - 1 = x₀ + 64 * wPtr + (63 : ℕ) by
        push_cast; ring]
      simpa [readWord, hget, bind, Except.bind] using hprev
    · refine ⟨w, x₀ + 64 * (wPtr + 1 : ℕ), offset, (e - (x₀ + 64 * (wPtr + 1 : ℕ))).toNat, rfl, hbits, he, ho, ?_⟩
      have hge : x₀ + 64 * (wPtr + 1 : ℕ) ≤ e := by
        by_contra hlt
        refine hzero ((and_ushiftRight_eq_zero ho).2 fun i hi => ?_)
        rw [← hbits i (by omega), Bool.eq_false_iff]
        intro hmem
        have := he.le_of_mem (by omega) hmem
        omega
      omega

theorem prevInElm_eq {x₁ e : ℤ} (hbits : ∀ i : ℕ, i < 64 → p (x₁ + i) = w.getLsbD i) (hlow : x₁ ≤ e) :
    ∀ offset : ℕ, offset < 64 → PrevIn p (x₁ + offset) e → prevInElm offset (x₁ + offset) w = .ok e := by
  intro offset
  induction offset with
  | zero =>
    intro ho he
    have heq : x₁ = e := le_antisymm hlow (by simpa using he.le)
    have hset : w.getLsbD 0 = true := by
      rw [← hbits 0 ho, Nat.cast_zero, add_zero, heq]
      exact he.mem
    unfold prevInElm
    rw [if_neg, heq]
    · simp
    · intro hzero
      rw [(and_one_shiftLeft_eq_zero ho).1 (by simpa using hzero)] at hset
      contradiction
  | succ offset ih =>
    intro ho he
    unfold prevInElm
    split_ifs with hzero
    · have hclear : p (x₁ + (offset + 1 : ℕ)) = false := by
        rw [hbits _ ho]
        exact (and_one_shiftLeft_eq_zero ho).1 hzero
      have he' := he.pred_of_not hclear
      rw [show x₁ + ((offset + 1 : ℕ) : ℤ) - 1 = x₁ + offset by push_cast; ring] at he' ⊢
      exact ih (by omega) he'
    · have hset : p (x₁ + (offset + 1 : ℕ)) = true := by
        rw [hbits _ ho]
        by_contra hclear
        exact hzero ((and_one_shiftLeft_eq_zero ho).2 (by simpa using hclear))
      rw [he.unique (PrevIn.self hset)]

theorem bvPrevIn_eq {b : BitVector} {x e : ℤ} (hup : x < b.low + 64 * b.words.length) (he : PrevIn b.has x e) :
    bvPrevIn b x = .ok e := by
  have hlow := b.low_le he.mem
  obtain ⟨w, wPtr, offset, hword, hget, ho, -, hx⟩ := wordOffset_eq (hlow.trans he.le) hup
  obtain ⟨w', x₁, offset', o, hprev, hbits, he', ho', heo⟩ :=
    prevInWord_eq b.holds hlow wPtr w offset hget ho (by simpa [← hx] using he)
  have helm := prevInElm_eq hbits (by omega) offset' ho' he'
  simp only [bvPrevIn, hword, bind, Except.bind]
  rw [hx, hprev]
  exact helm

/-! ## Counting -/

theorem one_shiftLeft_succ (o : ℕ) : (1#64 <<< o) <<< 1 = 1#64 <<< (o + 1) := by
  rw [← BitVec.shiftLeft_add]

theorem one_shiftLeft_eq_zero : 1#64 <<< o = 0 ↔ 64 ≤ o := by
  refine ⟨fun h => ?_, fun h => BitVec.shiftLeft_eq_zero h⟩
  by_contra hlt
  have := congrArg (fun v => v.getLsbD o) h
  simp [show o < 64 by omega] at this

theorem countLoop_eq : ∀ (k : ℕ) (w : BitVec 64) (ws : List (BitVec 64)) (x₀ : ℤ) (offset : ℕ)
    (count : BitVec 32), Holds (w :: ws) x₀ p → offset < 64 → offset + k < 64 * (ws.length + 1) →
    countLoop k w ws (1#64 <<< offset) count =
      .ok (count + BitVec.ofNat 32 (members p (x₀ + offset) (x₀ + offset + k - 1)).card) := by
  intro k
  induction k with
  | zero =>
    intro w ws x₀ offset count _ _ _
    rw [members_of_lt (by omega)]
    simp [countLoop]
  | succ k ih =>
    intro w ws x₀ offset count hp ho hk
    have hcard : BitVec.ofNat 32 (members p (x₀ + offset) (x₀ + offset + (k + 1 : ℕ) - 1)).card =
        (if w &&& 1#64 <<< offset ≠ 0 then 1 else 0) +
          BitVec.ofNat 32 (members p (x₀ + offset + 1) (x₀ + offset + (k + 1 : ℕ) - 1)).card := by
      have hiff := and_one_shiftLeft_eq_zero (w := w) ho
      rw [card_members_cons (by omega), hp.word ho, BitVec.ofNat_add]
      congr 1
      cases hbit : w.getLsbD offset
      · simp only [hbit, iff_true] at hiff
        simp [hiff]
      · rw [if_pos (fun h => by simp [hiff.1 h] at hbit)]
        rfl
    have hcount : (if w &&& 1#64 <<< offset ≠ 0 then count + 1 else count) =
        count + (if w &&& 1#64 <<< offset ≠ 0 then 1 else 0) := by
      split_ifs <;> simp
    rw [hcard, ← BitVec.add_assoc, ← hcount]
    unfold countLoop
    simp only [one_shiftLeft_succ, one_shiftLeft_eq_zero]
    generalize (if w &&& 1#64 <<< offset ≠ 0 then count + 1 else count) = count'
    split_ifs with hwrap
    · cases ws with
      | nil =>
        simp only [length_nil] at hk
        omega
      | cons w' ws =>
        simp only [length_cons] at hk
        have hnext := ih w' ws (x₀ + (64 : ℕ)) 0 count' (hp.tail (by omega)) (by omega) (by omega)
        rw [show x₀ + (offset : ℤ) + 1 = x₀ + (64 : ℕ) + (0 : ℕ) by push_cast; omega,
          show x₀ + (offset : ℤ) + ((k + 1 : ℕ) : ℤ) - 1 = x₀ + (64 : ℕ) + (0 : ℕ) + k - 1 by push_cast; omega]
        exact hnext
    · rw [show x₀ + (offset : ℤ) + 1 = x₀ + (offset + 1 : ℕ) by push_cast; ring,
        show x₀ + (offset : ℤ) + ((k + 1 : ℕ) : ℤ) - 1 = x₀ + (offset + 1 : ℕ) + k - 1 by push_cast; ring]
      exact ih w ws x₀ (offset + 1) count' hp (by omega) (by omega)

theorem countLoop_oob : ∀ (k : ℕ) (w : BitVec 64) (ws : List (BitVec 64)) (offset : ℕ) (count : BitVec 32),
    offset < 64 → 0 < k → offset + k = 64 * (ws.length + 1) →
    countLoop k w ws (1#64 <<< offset) count = .error .oob := by
  intro k
  induction k with
  | zero =>
    intro w ws offset count _ hk
    omega
  | succ k ih =>
    intro w ws offset count ho _ hk
    unfold countLoop
    simp only [one_shiftLeft_succ, one_shiftLeft_eq_zero]
    split_ifs with _ hwrap hwrap
    all_goals first
      | exact ih w ws (offset + 1) _ (by omega) (by omega) (by omega)
      | cases ws with
        | nil => rfl
        | cons w' ws =>
          simp only [length_cons] at hk
          exact ih w' ws 0 _ (by omega) (by omega) (by omega)

section
variable {d : Dvar} {b : BitVector} {x y : ℤ} (hb : d.type = .bv b) (hlow : b.low ≤ x) (hxy : x ≤ y)
include hb hlow hxy

theorem countDomainElms_eq (hup : y + 1 < b.low + 64 * b.words.length) :
    countDomainElms d x y = .ok (((members b.has x y).card : ℤ).bmod (2 ^ 32)) := by
  obtain ⟨w, wPtr, offset, hword, hget, ho, hdrop, hx⟩ := wordOffset_eq hlow (show x < _ by omega)
  have hp := b.holds.drop (by omega) wPtr
  rw [hdrop] at hp
  have hlen : wPtr < b.words.length := by
    by_contra hge
    rw [List.getElem?_eq_none (by omega)] at hget
    contradiction
  have hcount := countLoop_eq (y + 1 - x).toNat w (b.words.drop (wPtr + 1)) _ offset 0 hp ho
    (by rw [length_drop]; omega)
  rw [show b.low + ((64 : ℕ) : ℤ) * wPtr + offset = x by push_cast; omega,
    show x + ((y + 1 - x).toNat : ℤ) - 1 = y by omega, BitVec.ofNat_eq_ofNat, BitVec.zero_add] at hcount
  simp only [countDomainElms, Dvar.bvPtr, hb, hword, hcount, bind, Except.bind, pure, Except.pure,
    BitVec.ofNat_eq_ofNat, BitVec.toInt_ofNat']

theorem countDomainElms_oob (hup : y + 1 = b.low + 64 * b.words.length) : countDomainElms d x y = .error .oob := by
  obtain ⟨w, wPtr, offset, hword, hget, ho, hdrop, hx⟩ := wordOffset_eq hlow (show x < _ by omega)
  have hlen : wPtr < b.words.length := by
    by_contra hge
    rw [List.getElem?_eq_none (by omega)] at hget
    contradiction
  have hcount := countLoop_oob (y + 1 - x).toNat w (b.words.drop (wPtr + 1)) offset 0 ho (by omega)
    (by rw [length_drop]; omega)
  simp only [countDomainElms, Dvar.bvPtr, hb, hword, hcount, bind, Except.bind]

end

/-! ## The routines on a variable -/

section Readers
variable {d : Dvar} {b : BitVector} {x y e : ℤ}

theorem domainNextBv_eq (h : d.Shape) (hb : d.type = .bv b) (hx : d.first ≤ x) (he : NextIn b.has x e) :
    domainNextBv d x = .ok e := by
  simp only [domainNextBv, Dvar.bvPtr, hb, bind, Except.bind]
  exact bvNextIn_eq ((h.low_le hb).trans hx) he

theorem domainPrevBv_eq (h : d.Shape) (hb : d.type = .bv b) (hx : x ≤ d.last) (he : PrevIn b.has x e) :
    domainPrevBv d x = .ok e := by
  simp only [domainPrevBv, Dvar.bvPtr, hb, bind, Except.bind]
  exact bvPrevIn_eq (hx.trans_lt (h.last_lt hb)) he

theorem dmTrueBvNbt_eq (hb : d.type = .bv b) (hlow : b.low ≤ x) (hup : x < b.low + 64 * b.words.length) :
    dmTrueBvNbt d x = .ok (b.has x) := by
  obtain ⟨w, wPtr, offset, hword, hget, ho, -, hx⟩ := wordOffset_eq hlow hup
  have hbit : b.has x = w.getLsbD offset := by
    rw [hx, ← bitAt_word hget ho, ← b.holds]
    push_cast
    ring_nf
  have hiff := and_one_shiftLeft_eq_zero (w := w) ho
  simp only [dmTrueBvNbt, Dvar.bvPtr, hb, hword, bind, Except.bind, pure, Except.pure, hbit]
  congr 1
  cases hbit' : w.getLsbD offset <;> simp_all

theorem dmTrue_eq (h : d.Shape) : dmTrue d x = .ok (decide (x ∈ d.elems)) := by
  have hle := h.le
  unfold dmTrue
  split_ifs with hfirst hlast hit
  · have hiff : x = d.first ↔ x ∈ d.elems :=
      ⟨fun hx => hx ▸ h.first_mem_elems, fun hx => by have := (Dvar.mem_elems.1 hx).1.1; omega⟩
    simp only [hiff]
    rfl
  · have hiff : x = d.last ↔ x ∈ d.elems :=
      ⟨fun hx => hx ▸ h.last_mem_elems, fun hx => by have := (Dvar.mem_elems.1 hx).1.2; omega⟩
    simp only [hiff]
    rfl
  · have hmem : x ∈ d.elems := Dvar.mem_elems.2 ⟨by omega, by simp [hit]⟩
    simp [hmem, pure, Except.pure]
  · obtain ⟨b, hb⟩ : ∃ b, d.type = .bv b := by
      cases hd : d.type with
      | it => contradiction
      | bv b => exact ⟨b, rfl⟩
    have hlow := h.low_le hb
    have hup := h.last_lt hb
    rw [dmTrueBvNbt_eq hb (by omega) (by omega)]
    have hiff : b.has x = true ↔ x ∈ d.elems := by
      rw [Dvar.mem_elems, hb]
      exact ⟨fun hx => ⟨by omega, hx⟩, fun hx => hx.2⟩
    simp only [← hiff, Bool.decide_eq_true]

end Readers

/-- The loop over a domain, from `e` to `last`. It is given one round more than `last - e`. -/
def domainLoop {σ : Type} (d : Dvar) (body : ℤ → σ → Except Stop σ) : ℕ → ℤ → σ → Except Stop σ
  | 0, _, _ => .error .oob
  | rounds + 1, e, s => do
    let s ← body e s
    if e = d.last then return s
    else if d.type = .it then domainLoop d body rounds (e + 1) s
    else do
      let e ← domainNextBv d (e + 1)
      domainLoop d body rounds e s

theorem domainLoop_from {d : Dvar} (h : d.Shape) : ∀ (rounds : ℕ) (e : ℤ), e ∈ d.elems → (d.last - e).toNat < rounds →
    ∃ l : List ℤ, (∀ x, x ∈ l ↔ x ∈ d.elems ∧ e ≤ x) ∧ ∀ (σ : Type) (body : ℤ → σ → Except Stop σ) (s : σ),
        domainLoop d body rounds e s = l.foldlM (fun s e => body e s) s := by
  intro rounds
  induction rounds with
  | zero => intro e _ hlt; omega
  | succ rounds ih =>
    intro e he hlt
    have hmem := Dvar.mem_elems.1 he
    by_cases hlast : e = d.last
    · refine ⟨[e], fun x => ?_, fun σ body s => ?_⟩
      · rw [mem_singleton]
        constructor
        · rintro rfl
          exact ⟨he, le_refl x⟩
        · rintro ⟨hx, hex⟩
          have := (Dvar.mem_elems.1 hx).1
          omega
      · simp only [domainLoop, if_pos hlast, foldlM_cons, foldlM_nil]
    · obtain ⟨f, hf, hfl⟩ := exists_nextIn h.last_mem (show e + 1 ≤ d.last by omega)
      have hge := hf.le
      have hfmem : f ∈ d.elems := Dvar.mem_elems.2 ⟨⟨by omega, hfl⟩, hf.mem⟩
      obtain ⟨l, hl, hrun⟩ := ih f hfmem (by omega)
      refine ⟨e :: l, fun x => ?_, fun σ body s => ?_⟩
      · rw [mem_cons, hl]
        constructor
        · rintro (rfl | ⟨hx, hfx⟩)
          · exact ⟨he, le_refl x⟩
          · exact ⟨hx, by omega⟩
        · rintro ⟨hx, hex⟩
          rcases hex.lt_or_eq with hlt' | heq
          · exact .inr ⟨hx, hf.le_of_mem hlt' (Dvar.mem_elems.1 hx).2⟩
          · exact .inl heq.symm
      · rw [domainLoop, foldlM_cons]
        refine congrArg _ (funext fun s => ?_)
        rw [if_neg hlast, ← hrun]
        cases hd : d.type with
        | it =>
          have heq : f = e + 1 := le_antisymm (hf.le_of_mem (le_refl _) (by rw [hd]; rfl)) hge
          rw [if_pos rfl, heq]
        | bv b =>
          rw [if_neg (by simp), domainNextBv_eq h hd (by omega) (hd ▸ hf)]
          rfl

end Picat
