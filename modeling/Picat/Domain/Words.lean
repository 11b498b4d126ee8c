import Picat.Domain.Scan

/-!
# The routines that write a bit vector

What `it_to_bv_with_hole`, `it_to_bv_with_interval_holes`, `exclude_inner_elm_bv` and
`exclude_inner_interval_bv` do to the content of the vector and to the size: all four take a run of inner
elements out and lower the size by their number (`RemovesInner`).
-/

namespace Picat

open BitScan List

section
variable {d : Dvar} {b : BitVector} {ws : List (BitVec 64)} {w : BitVec 64} {p : ℤ → Bool} {x₀ x e : ℤ}

/-! ## The words under the routines that write -/

theorem BitVector.has_eq_of_holds (h : Holds b.words b.low p) (hx : b.low ≤ x) : b.has x = p x := by
  rw [show x = b.low + (x - b.low).toNat by omega, h]
  exact b.holds _

theorem readWord_eq {wPtr : ℕ} (hlt : wPtr < ws.length) : readWord ws wPtr = .ok ws[wPtr] := by
  simp only [readWord, List.getElem?_eq_getElem hlt]

theorem storeWord_eq {wPtr : ℕ} (hlt : wPtr < ws.length) (w : BitVec 64) :
    storeWord ws wPtr w = .ok (ws.set wPtr w) := if_pos hlt

section
variable {wPtr offset : ℕ} (hp : Holds ws x₀ p) (hw : ws[wPtr]? = some w) (ho : offset < 64)
include hp hw ho

theorem Holds.clear : Holds (ws.set wPtr (w &&& ~~~(1#64 <<< offset))) x₀
      (fun x => p x && !decide (x = x₀ + 64 * wPtr + offset)) := by
  obtain ⟨hlt, -⟩ := List.getElem?_eq_some_iff.1 hw
  intro i
  have hiff : (x₀ + (i : ℤ) = x₀ + 64 * wPtr + offset) ↔ i = 64 * wPtr + offset := by omega
  simp only [bitAt_set hlt, hiff]
  split_ifs with hi
  · rw [getLsbD_and_not_one_shiftLeft (Nat.mod_lt _ (by omega)), hp i,
      ← bitAt_word hw (Nat.mod_lt i (by omega)), ← hi, Nat.div_add_mod]
    congr 3
    exact propext ⟨fun h => by omega, fun h => by omega⟩
  · rw [hp i, decide_eq_false (by omega), Bool.not_false, Bool.and_true]

theorem Holds.insert : Holds (ws.set wPtr (w ||| 1#64 <<< offset)) x₀
      (fun x => p x || decide (x = x₀ + 64 * wPtr + offset)) := by
  obtain ⟨hlt, -⟩ := List.getElem?_eq_some_iff.1 hw
  intro i
  simp only [bitAt_set hlt]
  split_ifs with hi
  · rw [getLsbD_or_one_shiftLeft (Nat.mod_lt _ (by omega)), hp i,
      ← bitAt_word hw (Nat.mod_lt i (by omega)), ← hi, Nat.div_add_mod]
    congr 2
    exact propext ⟨fun h => by omega, fun h => by omega⟩
  · rw [hp i, decide_eq_false (by omega), Bool.or_false]

end

theorem Holds.congr {q : ℤ → Bool} (hp : Holds ws x₀ p) (h : ∀ x, x₀ ≤ x → p x = q x) : Holds ws x₀ q := by
  intro i
  rw [← h _ (by omega), hp i]

/-- `p` without the `k` elements from `s` on. -/
def cutRun (p : ℤ → Bool) (s : ℤ) (k : ℕ) (x : ℤ) : Bool := p x && !decide (s ≤ x ∧ x < s + k)

theorem cutRun_succ (s : ℤ) (k : ℕ) : cutRun (fun x => p x && !decide (x = s)) (s + 1) k = cutRun p s (k + 1) := by
  funext x
  simp only [cutRun, Bool.and_assoc, ← Bool.not_or, ← Bool.decide_or]
  congr 3
  push_cast
  exact propext ⟨fun h => by omega, fun h => by omega⟩

theorem cutRun_zero (s : ℤ) : cutRun p s 0 = p := by
  funext x
  simp [cutRun, show ¬ (s ≤ x ∧ x < s) by omega]

theorem itToBvHolesLoop_eq : ∀ (k : ℕ) (ws : List (BitVec 64)) (p : ℤ → Bool) (wPtr : ℕ) (w : BitVec 64)
    (offset : ℕ), Holds (ws.set wPtr w) x₀ p → offset < 64 → 64 * wPtr + offset + k < 64 * ws.length →
    ∃ ws' wPtr' w', itToBvHolesLoop k ws wPtr w offset = .ok (ws', wPtr', w') ∧ wPtr' < ws'.length ∧
      ws'.length = ws.length ∧ Holds (ws'.set wPtr' w') x₀ (cutRun p (x₀ + 64 * wPtr + offset) k) := by
  intro k
  induction k with
  | zero =>
    intro ws p wPtr w offset hp ho hk
    exact ⟨ws, wPtr, w, rfl, by omega, rfl, by rwa [cutRun_zero]⟩
  | succ k ih =>
    intro ws p wPtr w offset hp ho hk
    have hlt : wPtr < ws.length := by omega
    have hclear := Holds.clear hp (List.getElem?_set_self hlt) ho
    rw [set_set] at hclear
    unfold itToBvHolesLoop
    simp only
    split_ifs with hwrap
    · have hlen : wPtr + 1 < (ws.set wPtr (w &&& ~~~(1#64 <<< offset))).length := by
        rw [length_set]
        omega
      obtain ⟨ws', wPtr', w', hloop, hlt', hlen', hcut⟩ :=
        ih _ _ (wPtr + 1) _ 0 (by rwa [set_getElem_self hlen]) (by omega) (by rw [length_set]; omega)
      refine ⟨ws', wPtr', w', ?_, hlt', hlen'.trans length_set, ?_⟩
      · simpa only [storeWord_eq hlt, readWord_eq hlen, bind, Except.bind] using hloop
      · rwa [show x₀ + 64 * ((wPtr + 1 : ℕ) : ℤ) + (0 : ℕ) = x₀ + 64 * wPtr + offset + 1 by push_cast; omega,
          cutRun_succ] at hcut
    · obtain ⟨ws', wPtr', w', hloop, hlt', hlen', hcut⟩ := ih _ _ wPtr _ (offset + 1) hclear (by omega) (by omega)
      refine ⟨ws', wPtr', w', hloop, hlt', hlen', ?_⟩
      rwa [show x₀ + 64 * (wPtr : ℤ) + (offset + 1 : ℕ) = x₀ + 64 * wPtr + offset + 1 by push_cast; ring,
        cutRun_succ] at hcut

theorem excludeInnerStep_eq {wPtr offset : ℕ} (hp : Holds ws x₀ p) (hw : ws[wPtr]? = some w) (ho : offset < 64)
    (hx : x = x₀ + 64 * wPtr + offset) (count : ℤ) (trailed : Bool) :
    ∃ ws₁ w₁ trailed₁, excludeInnerStep ws wPtr w offset count trailed = .ok (ws₁, w₁, count - (p x).toNat, trailed₁) ∧
      Holds ws₁ x₀ (fun y => p y && !decide (y = x)) ∧ ws₁[wPtr]? = some w₁ ∧ ws₁.length = ws.length ∧
      (trailed₁ = false → trailed = false ∧ (p x).toNat = 0) := by
  obtain ⟨hlt, -⟩ := List.getElem?_eq_some_iff.1 hw
  have hbit : p x = w.getLsbD offset := by
    rw [← bitAt_word hw ho, ← hp, hx]
    push_cast
    ring_nf
  have hiff := and_one_shiftLeft_eq_zero (w := w) ho
  unfold excludeInnerStep
  rw [hbit]
  cases hset : w.getLsbD offset
  · refine ⟨ws, w, trailed, ?_, Holds.congr hp fun y _ => ?_, hw, rfl, fun h => ⟨h, rfl⟩⟩
    · rw [if_neg (fun h => h (hiff.2 hset))]
      simp [pure, Except.pure]
    · by_cases hy : y = x
      · rw [hy, hbit, hset, Bool.false_and]
      · rw [decide_eq_false hy, Bool.not_false, Bool.and_true]
  · refine ⟨_, _, true, ?_, hx ▸ Holds.clear hp hw ho, List.getElem?_set_self hlt, length_set, by simp⟩
    rw [if_pos (fun h => by simp [hiff.1 h] at hset)]
    simp [storeWord_eq hlt, bind, Except.bind, pure, Except.pure]

theorem excludeInnerLoop_eq : ∀ (k : ℕ) (ws : List (BitVec 64)) (p : ℤ → Bool) (wPtr : ℕ) (w : BitVec 64)
    (offset : ℕ) (count : ℤ) (trailed : Bool), Holds ws x₀ p → ws[wPtr]? = some w → offset < 64 →
    64 * wPtr + offset + k < 64 * ws.length →
    ∃ ws' trailed', excludeInnerLoop k ws wPtr w offset count trailed =
        .ok (ws', count - (members p (x₀ + 64 * wPtr + offset) (x₀ + 64 * wPtr + offset + k - 1)).card, trailed') ∧
      ws'.length = ws.length ∧ Holds ws' x₀ (cutRun p (x₀ + 64 * wPtr + offset) k) ∧
      (trailed' = false →
        trailed = false ∧ (members p (x₀ + 64 * wPtr + offset) (x₀ + 64 * wPtr + offset + k - 1)).card = 0) := by
  intro k
  induction k with
  | zero =>
    intro ws p wPtr w offset count trailed hp hw ho hk
    refine ⟨ws, trailed, ?_, rfl, by rwa [cutRun_zero], fun h => ⟨h, ?_⟩⟩
    · rw [members_of_lt (by omega)]
      simp [excludeInnerLoop]
    · rw [members_of_lt (by omega), Finset.card_empty]
  | succ k ih =>
    intro ws p wPtr w offset count trailed hp hw ho hk
    obtain ⟨ws₁, w₁, trailed₁, hround, hp₁, hw₁, hlen₁, htr₁⟩ := excludeInnerStep_eq hp hw ho rfl count trailed
    have hcard : (members p (x₀ + 64 * wPtr + offset) (x₀ + 64 * wPtr + offset + (k + 1 : ℕ) - 1)).card =
        (p (x₀ + 64 * wPtr + offset)).toNat +
        (members (fun x => p x && !decide (x = x₀ + 64 * wPtr + offset)) (x₀ + 64 * wPtr + offset + 1)
          (x₀ + 64 * wPtr + offset + 1 + k - 1)).card := by
      rw [card_members_cons (by omega)]
      congr 2
      rw [show x₀ + 64 * (wPtr : ℤ) + offset + ((k + 1 : ℕ) : ℤ) - 1 = x₀ + 64 * wPtr + offset + 1 + k - 1 by
        push_cast; ring]
      exact members_congr fun x hx _ => by
        rw [decide_eq_false (show x ≠ x₀ + 64 * wPtr + offset by omega), Bool.not_false, Bool.and_true]
    unfold excludeInnerLoop
    simp only [hround, bind, Except.bind]
    split_ifs with hwrap
    · have hlen : wPtr + 1 < ws₁.length := by omega
      obtain ⟨ws', trailed', hloop, hlen', hcut, htr⟩ := ih ws₁ _ (wPtr + 1) _ 0
        (count - (p (x₀ + 64 * wPtr + offset)).toNat) trailed₁ hp₁ (List.getElem?_eq_getElem hlen) (by omega)
        (by omega)
      rw [show x₀ + 64 * ((wPtr + 1 : ℕ) : ℤ) + (0 : ℕ) = x₀ + 64 * wPtr + offset + 1 by push_cast; omega]
        at hloop hcut htr
      refine ⟨ws', trailed', ?_, hlen'.trans hlen₁, by rwa [cutRun_succ] at hcut, fun h => ?_⟩
      · rw [readWord_eq hlen]
        simp only [hloop, hcard]
        congr 3
        push_cast
        ring
      · exact ⟨(htr₁ (htr h).1).1, by rw [hcard, (htr₁ (htr h).1).2, (htr h).2]⟩
    · obtain ⟨ws', trailed', hloop, hlen', hcut, htr⟩ := ih ws₁ _ wPtr _ (offset + 1)
        (count - (p (x₀ + 64 * wPtr + offset)).toNat) trailed₁ hp₁ hw₁ (by omega) (by omega)
      rw [show x₀ + 64 * (wPtr : ℤ) + (offset + 1 : ℕ) = x₀ + 64 * wPtr + offset + 1 by push_cast; ring]
        at hloop hcut htr
      refine ⟨ws', trailed', ?_, hlen'.trans hlen₁, by rwa [cutRun_succ] at hcut, fun h => ?_⟩
      · simp only [hloop, hcard]
        congr 3
        push_cast
        ring
      · exact ⟨(htr₁ (htr h).1).1, by rw [hcard, (htr₁ (htr h).1).2, (htr h).2]⟩

/-! ## Turning an interval into a vector -/

theorem wordNumber_eq (v : ℤ) : wordNumber v = v / 64 := by
  unfold wordNumber
  split_ifs with hv
  · exact Int.tdiv_eq_ediv_of_nonneg hv
  · rw [Int.neg_tdiv, Int.tdiv_eq_ediv_of_nonneg (by omega)]
    omega

theorem itToBvWords_holds (d : Dvar) :
    Holds (itToBvWords d).words (itToBvWords d).low (fun x => decide (x ≤ (itToBvWords d).up)) := by
  intro i
  simp only [itToBvWords, maskFf, bitAt_replicate (show 0 < 64 by omega), wordNumber_eq]
  congr 1
  exact propext ⟨fun h => by omega, fun h => by omega⟩

theorem itToBvWords_filled (d : Dvar) (hle : d.first ≤ d.last) : (itToBvWords d).Filled := by
  simp only [BitVector.Filled, itToBvWords, length_replicate, wordNumber_eq]
  omega

theorem itToBvWords_bounds (d : Dvar) : (itToBvWords d).low ≤ d.first ∧ d.last ≤ (itToBvWords d).up := by
  simp only [itToBvWords, wordNumber_eq]
  omega

def DvType.SameRange (t t' : DvType) : Prop :=
  ∀ b, t = .bv b → ∃ b', t' = .bv b' ∧ b'.low = b.low ∧ b'.up = b.up

theorem DvType.SameRange.refl (t : DvType) : t.SameRange t := fun b hb => ⟨b, hb, rfl, rfl⟩

theorem DvType.SameRange.trans {t t' t'' : DvType} (h : t.SameRange t') (h' : t'.SameRange t'') : t.SameRange t'' := by
  intro b hb
  obtain ⟨b', hb', hlow, hup⟩ := h b hb
  obtain ⟨b'', hb'', hlow', hup'⟩ := h' b' hb'
  exact ⟨b'', hb'', hlow'.trans hlow, hup'.trans hup⟩

/-- A routine for inner elements: it takes the elements from `f` to `t` out of the vector and lowers the size by
their number. -/
def RemovesInner (d : Dvar) (f t : ℤ) (r : Except Stop Dvar) : Prop :=
  ∃ b s, r = .ok { d with type := .bv b, size := s } ∧ b.Filled ∧ d.type.SameRange (.bv b) ∧
    s = d.size - (members d.type.has f t).card ∧
    ∀ x, d.first ≤ x → x ≤ d.last → b.has x = (d.type.has x && !decide (f ≤ x ∧ x ≤ t))

theorem RemovesInner.of_holds {f t : ℤ} {r : Except Stop Dvar} {s : ℤ} (hft : f ≤ t)
    (hd : d.type = .it ∨ d.type = .bv b) (hlow : b.low ≤ d.first)
    (hfill : b.Filled) (hlen : ws.length = b.words.length)
    (hp : ∀ x, d.first ≤ x → x ≤ d.last → p x = d.type.has x)
    (hws : Holds ws b.low (cutRun p f (t + 1 - f).toNat))
    (hr : r = .ok { d with type := .bv { b with words := ws }, size := s })
    (hs : s = d.size - (members d.type.has f t).card) : RemovesInner d f t r := by
  refine ⟨{ b with words := ws }, s, hr, ?_, fun b₀ hb₀ => ?_, hs, fun x hx hxl => ?_⟩
  · simpa only [BitVector.Filled, hlen] using hfill
  · rcases hd with hd | hd
    · rw [hd] at hb₀
      contradiction
    · obtain rfl : b = b₀ := DvType.bv.inj (hd.symm.trans hb₀)
      exact ⟨_, rfl, rfl, rfl⟩
  · rw [BitVector.has_eq_of_holds (b := { b with words := ws }) hws (hlow.trans hx), cutRun, hp x hx hxl]
    congr 3
    exact propext ⟨fun h => by omega, fun h => by omega⟩

theorem itToBvWithHole_removes (hd : d.type = .it) (hf : d.first < e) (hl : e < d.last) :
    RemovesInner d e e (itToBvWithHole d e) := by
  obtain ⟨hlow, hup⟩ := itToBvWords_bounds d
  have hfill := itToBvWords_filled d (by omega)
  have hlen : (itToBvWords d).up + 1 = (itToBvWords d).low + 64 * (itToBvWords d).words.length := hfill
  have hlt : (e - wordNumber d.first * 64).toNat / 64 < (itToBvWords d).words.length := by
    rw [show wordNumber d.first * 64 = (itToBvWords d).low from rfl]
    omega
  have hget : (itToBvWords d).words[(e - wordNumber d.first * 64).toNat / 64]? = some maskFf := by
    simp only [itToBvWords, length_replicate] at hlt ⊢
    rw [List.getElem?_replicate, if_pos hlt]
  have hclear := Holds.clear (itToBvWords_holds d) hget
    (Nat.mod_lt (e - wordNumber d.first * 64).toNat (show 0 < 64 by omega))
  rw [maskFf, BitVec.allOnes_and] at hclear
  refine RemovesInner.of_holds (p := fun x => decide (x ≤ (itToBvWords d).up)) (s := d.size - 1) (le_refl e)
    (.inl hd) hlow hfill length_set (fun x hx hxl => ?_)
    (Holds.congr hclear fun x hx => ?_)
    (by simp only [itToBvWithHole, storeWord_eq hlt, bind, Except.bind, pure, Except.pure, updateSize]) ?_
  · simp only [hd, DvType.has_it, decide_eq_true_eq]
    omega
  · have heq : e = (itToBvWords d).low + 64 * ((e - wordNumber d.first * 64).toNat / 64 : ℕ) +
        ((e - wordNumber d.first * 64).toNat % 64 : ℕ) := by
      rw [show wordNumber d.first * 64 = (itToBvWords d).low from rfl]
      omega
    simp only [← heq, cutRun]
    congr 3
    exact propext ⟨fun h => by omega, fun h => by omega⟩
  · rw [hd, card_members_self]
    rfl

theorem itToBvWithIntervalHoles_removes {f t : ℤ} (hd : d.type = .it) (hf : d.first < f) (hft : f ≤ t)
    (ht : t < d.last) : RemovesInner d f t (itToBvWithIntervalHoles d f t) := by
  obtain ⟨hlow, hup⟩ := itToBvWords_bounds d
  have hfill := itToBvWords_filled d (by omega)
  have hlen : (itToBvWords d).up + 1 = (itToBvWords d).low + 64 * (itToBvWords d).words.length := hfill
  have hlt : (f - wordNumber d.first * 64).toNat / 64 < (itToBvWords d).words.length := by
    rw [show wordNumber d.first * 64 = (itToBvWords d).low from rfl]
    omega
  have heq : (itToBvWords d).low + 64 * ((f - wordNumber d.first * 64).toNat / 64 : ℕ) +
      ((f - wordNumber d.first * 64).toNat % 64 : ℕ) = f := by
    rw [show wordNumber d.first * 64 = (itToBvWords d).low from rfl]
    omega
  obtain ⟨ws', wPtr', w', hloop, hlt', hlen', hcut⟩ := itToBvHolesLoop_eq (t + 1 - f).toNat (itToBvWords d).words
    _ _ (itToBvWords d).words[(f - wordNumber d.first * 64).toNat / 64] _
    (by rw [set_getElem_self hlt]; exact itToBvWords_holds d)
    (Nat.mod_lt (f - wordNumber d.first * 64).toNat (show 0 < 64 by omega)) (by omega)
  rw [heq] at hcut
  refine RemovesInner.of_holds (s := d.size - (t - f + 1)) hft (.inl hd) hlow hfill
    (length_set.trans hlen') (fun x hx hxl => ?_) hcut
    (by simp only [itToBvWithIntervalHoles, readWord_eq hlt, hloop, storeWord_eq hlt', bind, Except.bind, pure,
      Except.pure, updateSize]) ?_
  · simp only [hd, DvType.has_it, decide_eq_true_eq]
    omega
  · rw [hd, members_true fun x _ _ => DvType.has_it x, Int.card_Icc]
    omega

theorem excludeInnerElmBv_removes (h : d.Shape) (hb : d.type = .bv b) (hf : d.first < e) (hl : e < d.last) :
    RemovesInner d e e (excludeInnerElmBv d e) := by
  have hlow := h.low_le hb
  have hup := h.last_lt hb
  obtain ⟨w, wPtr, offset, hword, hget, ho, -, hx⟩ := wordOffset_eq (show b.low ≤ e by omega) (by omega)
  obtain ⟨hlt, -⟩ := List.getElem?_eq_some_iff.1 hget
  have hbit : b.has e = w.getLsbD offset := by
    rw [← bitAt_word hget ho, ← b.holds, hx]
    push_cast
    ring_nf
  have hiff : w = w &&& ~~~(1#64 <<< offset) ↔ b.has e = false := by
    rw [hbit]
    refine ⟨fun hw => ?_, fun hw => BitVec.eq_of_getLsbD_eq fun i hi => ?_⟩
    · rw [hw, getLsbD_and_not_one_shiftLeft ho]
      simp
    · rw [getLsbD_and_not_one_shiftLeft hi]
      by_cases hio : i = offset
      · simp [hio, hw]
      · simp [hio]
  unfold excludeInnerElmBv
  simp only [Dvar.bvPtr, hb, hword, bind, Except.bind]
  split_ifs with hw
  · -- already out
    have hout := hiff.1 hw
    refine ⟨b, d.size, by rw [← hb]; rfl, h.filled b hb, hb ▸ .refl _, ?_, fun x _ _ => ?_⟩
    · rw [hb, card_members_self, DvType.has_bv, hout]
      simp
    · rw [hb, DvType.has_bv]
      by_cases hxe : x = e
      · rw [hxe, hout, Bool.false_and]
      · rw [decide_eq_false (by omega), Bool.not_false, Bool.and_true]
  · have hin : b.has e = true := by simpa using fun h => hw (hiff.2 h)
    refine RemovesInner.of_holds (p := b.has) (s := d.size - 1) (le_refl e) (.inr hb) hlow (h.filled b hb)
      length_set (fun x _ _ => by rw [hb, DvType.has_bv]) (Holds.congr (Holds.clear b.holds hget ho) fun x _ => ?_)
      (by simp only [storeWord_eq hlt, pure, Except.pure, updateSize]) ?_
    · simp only [cutRun, ← hx]
      congr 3
      exact propext ⟨fun h => by omega, fun h => by omega⟩
    · rw [hb, card_members_self, DvType.has_bv, hin]
      rfl

theorem excludeInnerIntervalBv_removes {f t : ℤ} (h : d.Shape) (hb : d.type = .bv b) (hf : d.first < f)
    (hft : f ≤ t) (ht : t < d.last) : RemovesInner d f t (excludeInnerIntervalBv d f t) := by
  have hlow := h.low_le hb
  have hup := h.last_lt hb
  obtain ⟨w, wPtr, offset, hword, hget, ho, -, hx⟩ := wordOffset_eq (show b.low ≤ f by omega) (by omega)
  obtain ⟨ws', trailed, hloop, hlen, hcut, htrailed⟩ := excludeInnerLoop_eq (t + 1 - f).toNat b.words b.has wPtr w
    offset d.size false b.holds hget ho (by omega)
  rw [← hx] at hcut
  rw [← hx, show f + ((t + 1 - f).toNat : ℤ) - 1 = t by omega] at hloop htrailed
  refine RemovesInner.of_holds (s := d.size - (members b.has f t).card) hft (.inr hb) hlow (h.filled b hb) hlen
    (fun x _ _ => by rw [hb, DvType.has_bv]) hcut ?_ (by rw [hb]; rfl)
  simp only [excludeInnerIntervalBv, Dvar.bvPtr, hb, hword, hloop, bind, Except.bind, pure, Except.pure]
  cases trailed with
  | true => rfl
  | false => simp [(htrailed rfl).2]

end

end Picat
