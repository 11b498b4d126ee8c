import Picat.Domain.Invariant

/-!
# The scan macros, shift by shift

`NEXT_IN_WORD`, `NEXT_IN_ELM`, `PREV_IN_WORD` and `PREV_IN_ELM` with the masks that they shift along. A shift by the size
of a word or more, a word outside of the vector and a loop without an end all stop a scan with `.oob`.

* `domainScanBv_spec` : from every element of the range a scan returns the next and the previous set bit.
-/

namespace Picat.BvMacros

open BitScan

/-- `w << count`, undefined from the size of a word on. -/
def shl (w : BitVec 64) (count : ℕ) : Except Stop (BitVec 64) := if count < 64 then .ok (w <<< count) else .error .oob

/-- `w >> count` on an unsigned word. -/
def shr (w : BitVec 64) (count : ℕ) : Except Stop (BitVec 64) := if count < 64 then .ok (w >>> count) else .error .oob

def nextInWord (elm : ℤ) (w : BitVec 64) (ws : List (BitVec 64)) (offset : ℕ) : Except Stop (ℤ × BitVec 64 × ℕ) := do
  let mask ← shl maskFf offset
  if w &&& mask = 0 then
    let (w, elm) ← nextNonzeroWord ws (elm + 64 - offset)
    return (elm, w, 0)
  else
    return (elm, w, offset)

/-- The first loop of `NEXT_IN_ELM`, whose offset grows by 8 a round. -/
def nextByte : ℕ → ℤ → BitVec 64 → ℕ → Except Stop (ℤ × ℕ)
  | 0, _, _, _ => .error .oob
  | fuel + 1, elm, w, offset => do
      let mask ← shl 0xff#64 offset
      if w &&& mask = 0 then nextByte fuel (elm + 8) w (offset + 8) else return (elm, offset)

/-- The second loop of `NEXT_IN_ELM` -/
def nextBit : ℕ → ℤ → BitVec 64 → BitVec 64 → Except Stop ℤ
  | 0, _, _, _ => .error .oob
  | fuel + 1, elm, w, mask => if w &&& mask = 0 then nextBit fuel (elm + 1) w (mask <<< 1) else .ok elm

def nextInElm (elm : ℤ) (w : BitVec 64) (offset : ℕ) : Except Stop ℤ := do
  let (elm, offset) ← nextByte 64 elm w offset
  let mask ← shl 0x1#64 offset
  nextBit 64 elm w mask

def domainNextBv (d : Dvar) (elm : ℤ) : Except Stop ℤ := do
  let b ← d.bvPtr
  let (w, wPtr, offset) ← wordOffset b elm
  let (elm, w, offset) ← nextInWord elm w (b.words.drop (wPtr + 1)) offset
  nextInElm elm w offset

/-- `PREV_IN_ELM`, from the mask of the offset on -/
def prevInElm : ℕ → ℤ → BitVec 64 → BitVec 64 → Except Stop ℤ
  | 0, _, _, _ => .error .oob
  | fuel + 1, elm, w, mask => if w &&& mask = 0 then prevInElm fuel (elm - 1) w (mask >>> 1) else .ok elm

/-- The loop of `PREV_IN_WORD` shifts nothing. -/
def domainPrevBv (d : Dvar) (elm : ℤ) : Except Stop ℤ := do
  let b ← d.bvPtr
  let (w, wPtr, offset) ← wordOffset b elm
  let mask ← shr maskFf (64 - 1 - offset)
  let (elm, w, offset) ← prevInWord b.words wPtr elm w offset mask
  let mask ← shl 0x1#64 offset
  prevInElm 64 elm w mask

theorem shl_of_lt {w : BitVec 64} {count : ℕ} (h : count < 64) : shl w count = .ok (w <<< count) := if_pos h

section
variable {elm e : ℤ} {w : BitVec 64} {fuel offset o : ℕ}

/-- A round that finds a bit has not shifted its mask out of the word, and the rounds before it have shifted less. -/
theorem nextByte_of (h : Picat.nextByte fuel elm w offset = .ok (e, o)) :
    nextByte fuel elm w offset = .ok (e, o) ∧ offset ≤ o ∧ o < 64 := by
  induction fuel generalizing elm offset with
  | zero => simp [Picat.nextByte] at h
  | succ fuel ih =>
    rw [Picat.nextByte] at h
    split_ifs at h with hw
    · obtain ⟨hrun, hle, hlt⟩ := ih h
      rw [nextByte, shl_of_lt (by omega)]
      simp only [bind, Except.bind, hw, if_true]
      exact ⟨hrun, by omega, hlt⟩
    · obtain ⟨rfl, rfl⟩ := Prod.mk.inj (Except.ok.inj h)
      have hlt : offset < 64 := by
        by_contra hge
        exact hw (by rw [BitVec.shiftLeft_eq_zero (not_lt.mp hge), BitVec.and_zero]; rfl)
      rw [nextByte, shl_of_lt hlt]
      simp only [bind, Except.bind, if_neg hw]
      exact ⟨rfl, le_refl _, hlt⟩

theorem nextBit_eq : nextBit fuel elm w (0x1#64 <<< offset) = Picat.nextBit fuel elm w offset := by
  induction fuel generalizing elm offset with
  | zero => rfl
  | succ fuel ih => rw [nextBit, Picat.nextBit, one_shiftLeft_succ, ih]

theorem nextInElm_of (h : Picat.nextInElm elm w offset = .ok e) : nextInElm elm w offset = .ok e := by
  unfold Picat.nextInElm at h
  cases hbyte : Picat.nextByte 64 elm w offset with
  | error r => simp [hbyte, bind, Except.bind] at h
  | ok r =>
    obtain ⟨hrun, -, hlt⟩ := nextByte_of (show Picat.nextByte 64 elm w offset = .ok (r.1, r.2) from hbyte)
    simp only [hbyte, bind, Except.bind] at h
    simp only [nextInElm, hrun, bind, Except.bind, shl_of_lt hlt, nextBit_eq, h]

theorem one_shiftLeft_pred (ho : offset + 1 < 64) : 0x1#64 <<< (offset + 1) >>> 1 = 0x1#64 <<< offset := by
  apply BitVec.eq_of_getLsbD_eq
  intro i hi
  simp only [BitVec.getLsbD_ushiftRight, BitVec.getLsbD_shiftLeft, BitVec.getLsbD_one]
  rcases lt_trichotomy i offset with h | rfl | h
  · simp [h, show 1 + i < offset + 1 by omega]
  · simp [hi, ho, Nat.add_comm]
  · simp [show ¬ 1 + i - (offset + 1) = 0 by omega, show ¬ i - offset = 0 by omega]

theorem prevInElm_of (ho : offset < 64) (h : Picat.prevInElm offset elm w = .ok e) (hfuel : offset < fuel) :
    prevInElm fuel elm w (0x1#64 <<< offset) = .ok e := by
  induction offset generalizing elm fuel with
  | zero =>
    obtain ⟨fuel, rfl⟩ := Nat.exists_eq_succ_of_ne_zero hfuel.ne'
    rw [Picat.prevInElm] at h
    rw [prevInElm, BitVec.shiftLeft_zero]
    split_ifs at h ⊢
    exact h
  | succ offset ih =>
    obtain ⟨fuel, rfl⟩ := Nat.exists_eq_succ_of_ne_zero (Nat.ne_zero_of_lt hfuel)
    rw [Picat.prevInElm] at h
    rw [prevInElm]
    split_ifs at h ⊢
    · rw [one_shiftLeft_pred ho]
      exact ih (by omega) h (by omega)
    · exact h

end

theorem wordOffset_lt {b : BitVector} {elm : ℤ} {w : BitVec 64} {wPtr offset : ℕ}
    (h : wordOffset b elm = .ok (w, wPtr, offset)) : offset < 64 := by
  unfold wordOffset at h
  split_ifs at h
  cases hget : b.words[(elm - b.low).toNat / 64]? with
  | none => simp [hget] at h
  | some w' =>
    simp only [hget, Except.ok.injEq, Prod.mk.injEq] at h
    omega

theorem prevInWord_lt {ws : List (BitVec 64)} {wPtr : ℕ} {elm : ℤ} {w : BitVec 64} {offset : ℕ} {mask : BitVec 64}
    {r : ℤ × BitVec 64 × ℕ} (ho : offset < 64) (h : prevInWord ws wPtr elm w offset mask = .ok r) : r.2.2 < 64 := by
  induction wPtr generalizing elm w offset mask with
  | zero =>
    rw [prevInWord] at h
    split_ifs at h
    exact Except.ok.inj h ▸ ho
  | succ wPtr ih =>
    rw [prevInWord] at h
    split_ifs at h
    · cases hread : readWord ws wPtr with
      | error r => simp [hread, bind, Except.bind] at h
      | ok w' =>
        rw [hread] at h
        exact ih (by omega) h
    · exact Except.ok.inj h ▸ ho

section
variable {d : Dvar} {e m : ℤ}

theorem domainNextBv_of (h : Picat.domainNextBv d e = .ok m) : domainNextBv d e = .ok m := by
  unfold Picat.domainNextBv at h
  unfold domainNextBv
  cases hb : d.bvPtr with
  | error r => simp [hb, bind, Except.bind] at h
  | ok b =>
    simp only [hb, bvNextIn, bind, Except.bind] at h ⊢
    cases hword : wordOffset b e with
    | error r => simp [hword] at h
    | ok r =>
      have ho := wordOffset_lt (show wordOffset b e = .ok (r.1, r.2.1, r.2.2) from hword)
      simp only [hword] at h ⊢
      have hmask : nextInWord e r.1 (b.words.drop (r.2.1 + 1)) r.2.2 =
          Picat.nextInWord e r.1 (b.words.drop (r.2.1 + 1)) r.2.2 := by
        rw [nextInWord, shl_of_lt ho]
        rfl
      rw [hmask]
      cases hnext : Picat.nextInWord e r.1 (b.words.drop (r.2.1 + 1)) r.2.2 with
      | error s => simp [hnext] at h
      | ok s =>
        simp only [hnext] at h ⊢
        exact nextInElm_of h

theorem domainPrevBv_of (h : Picat.domainPrevBv d e = .ok m) : domainPrevBv d e = .ok m := by
  unfold Picat.domainPrevBv at h
  unfold domainPrevBv
  cases hb : d.bvPtr with
  | error r => simp [hb, bind, Except.bind] at h
  | ok b =>
    simp only [hb, bvPrevIn, bind, Except.bind] at h ⊢
    cases hword : wordOffset b e with
    | error r => simp [hword] at h
    | ok r =>
      have ho := wordOffset_lt (show wordOffset b e = .ok (r.1, r.2.1, r.2.2) from hword)
      simp only [hword, show shr maskFf (64 - 1 - r.2.2) = .ok (maskFf >>> (64 - 1 - r.2.2)) from if_pos (by omega)] at h ⊢
      cases hprev : prevInWord b.words r.2.1 e r.1 r.2.2 (maskFf >>> (64 - 1 - r.2.2)) with
      | error s => simp [hprev] at h
      | ok s =>
        have hs := prevInWord_lt ho hprev
        simp only [hprev, shl_of_lt hs] at h ⊢
        exact prevInElm_of hs h hs

end

/-- Between the ends of the vector a scan returns the set bit that it is looking for. -/
theorem domainScanBv_spec {d : Dvar} {b : BitVector} {e : ℤ} (h : d.RepInv) (hb : d.type = .bv b) (hlow : b.low ≤ e)
    (hup : e ≤ b.up) :
    ((∃ x, e ≤ x ∧ b.has x = true) → ∃ m, domainNextBv d e = .ok m ∧ IsLeast {x | e ≤ x ∧ b.has x = true} m) ∧
    ((∃ x, x ≤ e ∧ b.has x = true) → ∃ m, domainPrevBv d e = .ok m ∧ IsGreatest {x | x ≤ e ∧ b.has x = true} m) := by
  constructor
  · rintro ⟨x, hex, hx⟩
    obtain ⟨m, hm, -⟩ := exists_nextIn hx hex
    have hscan : Picat.domainNextBv d e = .ok m := by
      simp only [Picat.domainNextBv, Dvar.bvPtr, hb, bind, Except.bind]
      exact bvNextIn_eq hlow hm
    exact ⟨m, domainNextBv_of hscan, hm⟩
  · rintro ⟨x, hxe, hx⟩
    obtain ⟨m, hm, -⟩ := exists_prevIn hx hxe
    have hfilled : b.up + 1 = b.low + 64 * b.words.length := (h.bv b hb).1
    have hscan : Picat.domainPrevBv d e = .ok m := by
      simp only [Picat.domainPrevBv, Dvar.bvPtr, hb, bind, Except.bind]
      exact bvPrevIn_eq (by omega) hm
    exact ⟨m, domainPrevBv_of hscan, hm⟩

/-- The vector `0..127` with the elements 2 and 66: the scan from 3 goes on to the second word. -/
theorem domainScanBv_spec_two : ∃ m, domainNextBv ⟨.susp, .bv ⟨0, 127, [0x4#64, 0x4#64]⟩, 2, 66, 2, false⟩ 3 = .ok m ∧
      IsLeast {x | 3 ≤ x ∧ BitVector.has ⟨0, 127, [0x4#64, 0x4#64]⟩ x = true} m := by
  refine (domainScanBv_spec ⟨?_, ?_⟩ rfl (by decide) (by decide)).1 ⟨66, by decide, by decide⟩
  · simp
  · rintro b hb
    obtain rfl := DvType.bv.inj hb
    refine ⟨by simp [BitVector.Filled], by decide, by decide, by decide, by decide, ?_⟩
    unfold members
    decide +kernel

end Picat.BvMacros
