import Picat.Token.ScanPasses
import Picat.Token.StringStep

/-!
# Quoted characters in step

`read_utf8_character` up to what is not compared, and `read_utf8_character_string`.
-/

namespace Picat
open Simulation

variable {e : Bool} {k : Nat} {c c' : Int}

/-- What comes of an escape sequence: an exception in both, or the same character. -/
def Escaped (e : Bool) (k : Nat) (d d' : Int) (s : ScanState (List UInt8)) (s' : ScanState StringIn) : Prop :=
  stringLink.Failed s s' ∨ (d' = d ∧ stringLink.Near comparedSource.room e k s s')

theorem Escaped.quoted {d d' : Int} {s : ScanState (List UInt8)} {s' : ScanState StringIn} (hk : 0 < k)
    (h : Escaped e (k - 1) d d' s s') : stringLink.Quoted comparedSource.room e k d d' s s' :=
  h.imp_right fun hd => ⟨hd.1, hd.2.1, by have hroom := hd.2.2; omega⟩

theorem raise_sim {x y : TokenError} : InRun (fun (_ : ScanState (List UInt8)) s' => stringLink.aliveRight s'.source)
    (setException x) (setException y) fun _ _ => stringLink.Failed :=
  Sim.modify fun _ _ hP => ⟨⟨rfl, rfl⟩, trivial, hP⟩

theorem setException_failed {P : ScanState (List UInt8) → ScanState StringIn → Prop} (x y : TokenError)
    (hP : ∀ s s', P s s' → stringLink.Rel e s s') :
    InRun P (setException x) (setException y) fun _ _ => stringLink.Failed :=
  raise_sim.pre fun s s' h => (hP s s' h).source.2.1

/-! ## Escape sequences -/

theorem unicodeDigits_sim : ∀ (i : Nat) (n : Int), InRun (stringLink.Near comparedSource.room e k)
    (unicodeDigits comparedSource i n) (unicodeDigits stringSource i n) fun r r' s s' =>
      r' = r ∧ if r.2 then stringLink.Near comparedSource.room e k s s' else stringLink.Failed s s' := by
  intro i
  induction i with
  | zero => exact fun n => Sim.pure fun _ _ hP => ⟨rfl, hP⟩
  | succ i ih =>
    intro n
    refine sourceStep_string.getc_bind fun c c' hc => sourceStep_string.digVal_bind hc fun v v' hv => ?_
    rw [hv.val]
    refine Sim.ite (fun _ _ _ => ?_) (fun _ _ => (ih _).pre fun _ _ hP => hP.near) fun _ _ => ?_
    · rw [Ne, Ne, sourceStep_string.char hc _ (by decide) (by decide)]
    · exact (setException_failed _ _ fun _ _ hP => hP.2.1).bind fun _ _ => Sim.pure fun _ _ hP => ⟨rfl, hP⟩

theorem escapeUnicode_sim : InRun (stringLink.Near comparedSource.room e k) (escapeUnicode comparedSource)
    (escapeUnicode stringSource) (Escaped e k) := by
  refine (unicodeDigits_sim 4 0).bind_eq fun ⟨n, good⟩ => ?_
  cases good with
  | false => exact Sim.pure fun _ _ hP => .inl hP
  | true =>
    refine Sim.pre (P := stringLink.Near comparedSource.room e k) ?_ fun _ _ hP => hP
    refine (sourceStep_string.getc e k).bind fun c c' => Sim.of_pre (fun _ _ hP => hP.1.1) fun hc => ?_
    refine sourceStep_string.digVal_bind hc fun v v' hv => ?_
    rw [hv.val]
    refine Sim.ite (fun _ _ _ => ?_) (fun _ _ => ?_) fun _ _ => ?_
    · rw [Ne, Ne, sourceStep_string.char hc _ (by decide) (by decide)]
    · refine Sim.pre ?_ fun _ _ hP => hP.1.near
      refine (unicodeDigits_sim 3 _).bind_eq fun ⟨n, good⟩ => ?_
      refine Sim.pure fun s s' hP => ?_
      cases good
      · exact .inl hP
      · exact .inr ⟨rfl, hP⟩
    · have hpos : c > 0 ↔ c' > 0 := by
        rcases hv with ⟨hc1, -⟩ | ⟨-, -, hcc, -⟩
        · rcases hc with ⟨h1, -, -⟩ | ⟨-, rfl⟩ | ⟨h128, -, -⟩ <;> omega
        · rw [hcc]
      have hback : InRun (fun s s' => stringLink.Look comparedSource.room e k c c' s s' ∧ stringLink.back c c' s s')
          (when (c > 0) (comparedSource.ungetc c)) (when (c' > 0) (stringSource.ungetc c')) fun _ _ =>
            stringLink.Near comparedSource.room e k :=
        Sim.ite (fun _ _ _ => hpos) (fun _ _ => ungetc_sim e k c c') fun _ _ => Sim.pure fun _ _ hP => hP.1.near
      exact hback.bind fun _ _ => Sim.pure fun _ _ hP => .inr ⟨rfl, hP⟩

/-- The character after the digits of an escape sequence, or an exception. -/
def AfterDigits (e : Bool) (k : Nat) (r r' : Int × Option Int) (s : ScanState (List UInt8)) (s' : ScanState StringIn) :
    Prop :=
  r'.1 = r.1 ∧ match r.2, r'.2 with
    | some c, some c' => stringLink.Look comparedSource.room e k c c' s s' ∧ stringLink.back c c' s s'
    | none, none => stringLink.Failed s s'
    | _, _ => False

theorem endsDigits_iff (hc : StringChar c c') : endsDigits (-1) c ↔ endsDigits 0 c' := by
  unfold endsDigits
  rw [hc.eof_iff, hc.eq_iff (n := singleQuote) (by decide) (by decide),
    hc.eq_iff (n := backslash) (by decide) (by decide), hc.eq_iff (n := newline) (by decide) (by decide)]

theorem escapeDigits_sim {base : Int} (hbase : base ≤ 16) (n : Int) : InRun (stringLink.Near comparedSource.room e k)
    (escapeDigits comparedSource (-1) base n) (escapeDigits stringSource 0 base n) (AfterDigits e k) := by
  apply (sourceStep_string.getc e k).bind
  intro c c'
  refine sourceStep_string.loop (fun j a a' s s' => (j ≤ k ∧ a'.1 = a.1) ∧
    stringLink.Look comparedSource.room e j a.2 a'.2 s s' ∧ stringLink.back a.2 a'.2 s s')
    (fun s s' hP => ⟨hP.1.enter.1, hP.1.enter.2.imp fun j hj => ⟨hj.1, ⟨hj.2.1, rfl⟩, hj.2.2, hP.2⟩⟩) ?_
  intro j ⟨n, c⟩ ⟨n', c'⟩
  refine Sim.and fun ⟨hj, hn⟩ => ?_
  obtain rfl : n' = n := hn
  apply Sim.of_pre (fun _ _ hP => hP.1.1)
  intro hc
  refine Sim.ite (fun _ _ _ => endsDigits_iff hc) (fun _ _ => ?_) fun _ _ => ?_
  · exact Sim.pure fun _ _ hP => ⟨rfl, hP.1.mono hj, hP.2⟩
  apply sourceStep_string.digVal_bind hc
  intro v v' hv
  rw [hv.val]
  refine Sim.ite (fun _ _ _ => Iff.rfl) (fun hle _ => ?_) fun _ _ => ?_
  · obtain ⟨hc1, -, -, -⟩ := hv.eq_of_lt (by omega)
    have hc1 : c ≠ -1 := by omega
    refine Sim.bind ((SourceStep.after hc1 (sourceStep_string.getc e)).pre fun _ _ hP => hP.1) fun d d' =>
      Sim.and fun hj0 => Sim.pure fun _ _ hP => ?_
    exact ⟨j - 1, by omega, ⟨by omega, rfl⟩, hP⟩
  · exact (setException_failed _ _ fun _ _ hP => hP.1.2.1).bind fun _ _ => Sim.pure fun _ _ hP => ⟨rfl, hP⟩

theorem escapeEnd_sim (n : Int) (hc : c = backslash ↔ c' = backslash) :
    InRun (fun s s' => (c = backslash → stringLink.Near comparedSource.room e k s s') ∧ s'.source.past = false)
      (escapeEnd n c) (escapeEnd n c') (Escaped e k) := by
  unfold escapeEnd
  by_cases hb : c = backslash
  · rw [when_neg (not_not.2 hb), when_neg (not_not.2 (hc.1 hb))]
    exact Sim.pure fun _ _ hP => .inr ⟨rfl, hP.1 hb⟩
  · rw [when_pos hb, when_pos (mt hc.2 hb)]
    exact (raise_sim.pre fun _ _ hP => hP.2).bind fun _ _ => Sim.pure fun _ _ hP => .inl hP

theorem escapeNumber_sim {base : Int} (hbase : base ≤ 16) (n : Int) : InRun (stringLink.Near comparedSource.room e k)
    (escapeNumber comparedSource base n) (escapeNumberString stringSource base n) (Escaped e k) := by
  refine (escapeDigits_sim hbase n).bind fun ⟨n, r⟩ ⟨n', r'⟩ => Sim.and fun hn => ?_
  obtain rfl : n' = n := hn
  cases r with
  | none =>
    cases r' with
    | none => exact Sim.pure fun _ _ hP => .inl hP
    | some c' => exact fun _ _ hP => hP.elim
  | some c =>
    cases r' with
    | none => exact fun _ _ hP => hP.elim
    | some c' =>
      refine Sim.pre (P := fun s s' => stringLink.Look comparedSource.room e k c c' s s' ∧ stringLink.back c c' s s')
        ?_ fun _ _ hP => hP
      apply Sim.of_pre (fun _ _ hP => hP.1.1)
      intro hc
      refine Sim.bind_right (T := fun _ s t' => (c = backslash → stringLink.Near comparedSource.room e k s t') ∧
        t'.source.past = false) (fun s s' hP => ?_) fun _ => ?_
      · by_cases hnl : c' = newline
        · have hcn : c = newline := (hc.eq_iff (by decide) (by decide)).2 hnl
          obtain ⟨b, before, hbefore, -⟩ := hP.2 (by rw [hcn]; decide)
          rw [when_pos hnl]
          exact ⟨_, _, stringUngetc_run c' hbefore hP.1.2.1.source.2.1,
            fun hb => absurd (hcn.symm.trans hb) (by decide), rfl⟩
        · rw [when_neg hnl]
          exact ⟨_, _, rfl, fun _ => hP.1.near, hP.1.2.1.source.2.1⟩
      · exact escapeEnd_sim n' (hc.eq_iff (by decide) (by decide))

/-! ## Closing quotes and UTF-8 sequences -/

theorem closeQuoted_sim {q : Int} (hq : 1 ≤ q) (hq' : q ≤ 127) (hc : c = q) :
    InRun (stringLink.Look comparedSource.room e k c c') (closeQuoted comparedSource q) (closeQuoted stringSource q)
      (stringLink.Quoted comparedSource.room e k) := by
  apply sourceStep_string.next_bind (by omega)
  intro hk d d' hd
  refine Sim.ite (fun _ _ _ => hd.eq_iff hq hq') (fun hdq hdq' => ?_) fun _ _ => ?_
  · exact Sim.pure fun s s' hP => .inr ⟨hdq'.trans hdq.symm, hP.2.1, by have hroom := hP.near.2; omega⟩
  · have hset : InRun (stringLink.Look comparedSource.room e (k - 1) d d') (setLastc d) (setLastc d') fun _ _ =>
        stringLink.Near comparedSource.room e (k - 1) :=
      Sim.modify fun s s' hP => ⟨⟨hP.2.1.source, hd, hP.2.1.left, hP.2.1.right⟩, hP.near.2⟩
    exact hset.bind fun _ _ => Sim.pure fun s s' hP => .inr ⟨rfl, hP.1, by have hroom := hP.2; omega⟩

/-- The next `n` bytes continue a UTF-8 sequence. -/
def Continues (n : Nat) (rest : List UInt8) : Prop :=
  ∀ i < n, ((rest[i]?).any fun b => isContinuation b.toNat) = true

theorem isContinuation_congr {d d' : Int} (h : lowByte d' = lowByte d) : isContinuation d' = isContinuation d := by
  unfold isContinuation
  rw [h]

theorem getc_continues (n : Nat) :
    InRun (fun s s' => stringLink.Near comparedSource.room e k s s' ∧ Continues (n + 1) s.source) comparedSource.getc
      stringSource.getc fun d d' s s' => (isContinuation d = true ∧ lowByte d' = lowByte d) ∧
        stringLink.Near comparedSource.room e k s s' ∧ Continues n s.source := by
  rintro s s' ⟨hP, hcont⟩
  obtain ⟨d, t, d', t', hrun, hrun', hL, -, -, hsrc⟩ := stringLink_getc hP
  rw [show comparedSource.getc s = .ok (d, t) from hrun]
  rcases hsrc with ⟨-, hnil⟩ | ⟨b, hcons, rfl⟩
  · have h0 := hcont 0 (Nat.succ_pos n)
    rw [hnil] at h0
    exact absurd h0 (by decide)
  · rw [hcons] at hcont
    exact ⟨d', t', hrun', ⟨hcont 0 (Nat.succ_pos n), StringChar.lowByte hL.1 (by omega)⟩, hL.near,
      fun i hi => hcont (i + 1) (Nat.succ_lt_succ hi)⟩

theorem continues_bind (n : Nat) {f g : Int → Scan (List UInt8) Int} {f' g' : Int → Scan StringIn Int}
    {Q : Int → Int → ScanState (List UInt8) → ScanState StringIn → Prop}
    (hf : ∀ d d', lowByte d' = lowByte d →
      InRun (fun s s' => stringLink.Near comparedSource.room e k s s' ∧ Continues n s.source) (f d) (f' d') Q) :
    InRun (fun s s' => stringLink.Near comparedSource.room e k s s' ∧ Continues (n + 1) s.source)
      (comparedSource.getc >>= fun d => if isContinuation d then f d else g d)
      (stringSource.getc >>= fun d => if isContinuation d then f' d else g' d) Q := by
  refine (getc_continues n).bind fun d d' => Sim.and fun ⟨hcont, hlow⟩ => ?_
  rw [if_pos hcont, if_pos ((isContinuation_congr hlow).trans hcont)]
  exact hf d d' hlow

theorem Continues.succ {n : Nat} {rest : List UInt8} (h : Continues n rest)
    (hn : ((rest[n]?).any fun b => isContinuation b.toNat) = true) : Continues (n + 1) rest := by
  intro i hi
  rcases Nat.lt_succ_iff_lt_or_eq.1 hi with hi | rfl
  · exact h i hi
  · exact hn

theorem Continues.of_complete {b : UInt8} {rest : List UInt8} (h : utf8Complete (b :: rest) = true)
    (hhigh : lowByte b.toNat &&& 0x80 ≠ 0) :
    if lowByte b.toNat &&& 0xe0 = 0xc0 then Continues 1 rest
    else if lowByte b.toNat &&& 0xf0 = 0xe0 then Continues 2 rest
    else lowByte b.toNat &&& 0xf8 = 0xf0 ∧ Continues 3 rest := by
  have h0 : Continues 0 rest := fun i hi => absurd hi (Nat.not_lt_zero i)
  simp only [utf8Complete, if_neg hhigh] at h
  split_ifs at h ⊢ with h2 h3 h4
  · exact h0.succ h
  · rw [Bool.and_eq_true] at h
    exact (h0.succ h.1).succ h.2
  · rw [Bool.and_eq_true, Bool.and_eq_true] at h
    exact ⟨h4, ((h0.succ h.1.1).succ h.1.2).succ h.2⟩

theorem utf8Sequence_sim (back back' : Int → Bool) {b : UInt8} (hlow : lowByte c' = lowByte b.toNat)
    (hhigh : lowByte b.toNat &&& 0x80 ≠ 0) :
    InRun (fun s s' => stringLink.Near comparedSource.room e k s s' ∧ utf8Complete (b :: s.source) = true)
      (utf8Sequence comparedSource back b.toNat) (utf8Sequence stringSource back' c') (Escaped e k) := by
  unfold utf8Sequence
  rw [hlow]
  refine Sim.ite (fun _ _ _ => Iff.rfl) (fun h2 _ => ?_) fun h2 _ => ?_
  · refine Sim.pre (continues_bind 0 fun b2 b2' hl2 => ?_) fun s s' hP => ⟨hP.1, ?_⟩
    · rw [hl2]
      exact Sim.pure fun _ _ hP => .inr ⟨rfl, hP.1⟩
    · have hcont := Continues.of_complete hP.2 hhigh
      rwa [if_pos h2] at hcont
  refine Sim.ite (fun _ _ _ => Iff.rfl) (fun h3 _ => ?_) fun h3 _ => ?_
  · refine Sim.pre (continues_bind 1 fun b2 b2' hl2 => continues_bind 0 fun b3 b3' hl3 => ?_) fun s s' hP => ⟨hP.1, ?_⟩
    · rw [hl2, hl3]
      exact Sim.pure fun _ _ hP => .inr ⟨rfl, hP.1⟩
    · have hcont := Continues.of_complete hP.2 hhigh
      rwa [if_neg h2, if_pos h3] at hcont
  have hcont : ∀ {rest}, utf8Complete (b :: rest) = true → lowByte b.toNat &&& 0xf8 = 0xf0 ∧ Continues 3 rest := by
    intro rest h
    have hcont := Continues.of_complete h hhigh
    rwa [if_neg h2, if_neg h3] at hcont
  apply Sim.of_pre (fun _ _ hP => (hcont hP.2).1)
  intro h4
  rw [if_pos h4, if_pos h4]
  refine Sim.pre (continues_bind 2 fun b2 b2' hl2 => continues_bind 1 fun b3 b3' hl3 =>
    continues_bind 0 fun b4 b4' hl4 => ?_) fun s s' hP => ⟨hP.1, (hcont hP.2).2⟩
  rw [hl2, hl3, hl4]
  exact Sim.pure fun _ _ hP => .inr ⟨rfl, hP.1⟩

/-! ## The readers -/

/-- The next byte is none of those that only one of the readers takes for an escape. -/
def EscapeSame (rest : List UInt8) : Prop :=
  (rest.head?.any fun d => (d.toNat : Int) = newline ∨ (d.toNat : Int) = carriageReturn ∨ (d.toNat : Int) = ch 'X') = false

theorem escapeLetter_sim (hc : StringChar c c') (hne : c ≠ -1) : escapeLetter c' = escapeLetter c := by
  rcases hc with ⟨-, -, rfl⟩ | ⟨h1, -⟩ | ⟨h128, h255, rfl⟩
  · rfl
  · exact absurd h1 hne
  · have hnone : ∀ d : Int, d < 0 ∨ 128 ≤ d → escapeLetter d = none := by
      intro d hd
      have hneq : ∀ n : Int, 0 ≤ n → n < 128 → d ≠ n := fun n h0 h1 => by omega
      unfold escapeLetter
      rw [if_neg (hneq _ (by decide) (by decide)), if_neg (hneq _ (by decide) (by decide)),
        if_neg (hneq _ (by decide) (by decide)), if_neg (hneq _ (by decide) (by decide)),
        if_neg (hneq _ (by decide) (by decide)), if_neg (hneq _ (by decide) (by decide)),
        if_neg (hneq _ (by decide) (by decide)), if_neg]
      simp only [not_or]
      exact ⟨hneq _ (by decide) (by decide), hneq _ (by decide) (by decide), hneq _ (by decide) (by decide),
        hneq _ (by decide) (by decide)⟩
    rw [hnone c (.inr h128), hnone _ (.inl (by omega))]

theorem eolInQuoted_sim {α : Type} (r : α) :
    InRun (stringLink.Rel e) (do setException .inCharacter; pure r) handleEolInQuoted2 fun r' _ s s' =>
      r' = r ∧ stringLink.Failed s s' := by
  refine Sim.bind_right (T := fun _ s s' => stringLink.aliveRight s'.source) (fun s s' hP => ?_) fun _ => ?_
  · exact ⟨⟨⟩, { s' with lastc := 0 }, rfl, hP.source.2.1⟩
  · exact raise_sim.bind fun _ _ => Sim.pure fun _ _ hP => ⟨rfl, hP⟩

theorem readEscape_sim :
    InRun (fun s s' => stringLink.Near comparedSource.room e k s s' ∧ EscapeSame s.source) (readEscape comparedSource)
      (readEscapeString stringSource) fun r d' s s' => ∃ d, r = some d ∧ Escaped e k d d' s s' := by
  have hgetc : InRun (fun s s' => stringLink.Near comparedSource.room e k s s' ∧ EscapeSame s.source)
      comparedSource.getc stringSource.getc fun c c' s s' =>
        (c ≠ newline ∧ c ≠ carriageReturn ∧ c ≠ ch 'X') ∧ stringLink.Look comparedSource.room e k c c' s s' := by
    rintro s s' ⟨hP, hesc⟩
    obtain ⟨c, t, c', t', hrun, hrun', hL, -, -, hsrc⟩ := stringLink_getc hP
    rw [show comparedSource.getc s = .ok (c, t) from hrun]
    refine ⟨c', t', hrun', ?_, hL⟩
    rcases hsrc with ⟨rfl, -⟩ | ⟨b, hcons, rfl⟩
    · exact ⟨by decide, by decide, by decide⟩
    · rw [EscapeSame, hcons] at hesc
      simpa using hesc
  refine hgetc.bind fun c c' => Sim.and fun ⟨hnl, hcr, hX⟩ => Sim.of_pre (fun _ _ hP => hP.1) fun hc => ?_
  by_cases hne : c = -1
  · rw [if_pos hne, if_pos (.inr (hc.eof_iff.1 hne))]
    exact (eolInQuoted_sim (some (-1))).conseq (fun _ _ hP => hP.2.1) fun _ _ _ _ hR => ⟨-1, hR.1, .inl hR.2⟩
  have hc' : ¬(c' = newline ∨ c' = 0) := by
    rw [not_or]
    exact ⟨mt (hc.eq_iff (by decide) (by decide)).2 hnl, mt hc.eof_iff.2 hne⟩
  rw [if_neg hne, if_neg hcr, if_neg hnl, if_neg hc', escapeLetter_sim hc hne]
  cases escapeLetter c with
  | some d => exact Sim.pure fun _ _ hP => ⟨d, rfl, .inr ⟨rfl, hP.near⟩⟩
  | none =>
    have heq := sourceStep_string.char hc
    refine Sim.ite (fun _ _ _ => ?_) (fun _ _ => ?_) fun _ _ => ?_
    · rw [or_iff_left hX]
      exact heq _ (by decide) (by decide)
    · exact ((escapeNumber_sim (by decide) 0).pre fun _ _ hP => hP.near).map_left fun d _ _ _ hR => ⟨d, rfl, hR⟩
    refine Sim.ite (fun _ _ _ => ?_) (fun _ _ => ?_) fun _ _ => ?_
    · rw [heq _ (by decide) (by decide), heq _ (by decide) (by decide)]
    · exact (escapeUnicode_sim.pre fun _ _ hP => hP.near).map_left fun d _ _ _ hR => ⟨d, rfl, hR⟩
    refine Sim.ite (fun _ _ _ => ?_) (fun _ _ => ?_) fun _ _ => ?_
    · have h0 : ch '0' = 48 := rfl
      have h7 : ch '7' = 55 := rfl
      rcases hc with ⟨-, -, rfl⟩ | ⟨h1, -⟩ | ⟨h128, h255, rfl⟩
      · exact Iff.rfl
      · exact absurd h1 hne
      · omega
    · refine sourceStep_string.digVal_bind hc fun v v' hv => ?_
      rw [hv.val]
      exact ((escapeNumber_sim (by decide) v).pre fun _ _ hP => hP.near).map_left fun d _ _ _ hR => ⟨d, rfl, hR⟩
    · exact (setException_failed _ _ fun _ _ hP => hP.2.1).bind fun _ _ => Sim.pure fun _ _ hP => ⟨c, rfl, .inl hP⟩

theorem getc_quoted (q : Int) :
    InRun (fun s s' => stringLink.Near comparedSource.room e k s s' ∧ quotedOutside q s.source = false)
      comparedSource.getc stringSource.getc fun c c' s s' => stringLink.Look comparedSource.room e k c c' s s' ∧
        (c ≠ -1 → ∃ b : UInt8, (b.toNat : Int) = c ∧ quotedOutside q (b :: s.source) = false) := by
  rintro s s' ⟨hP, hq⟩
  obtain ⟨c, t, c', t', hrun, hrun', hL, -, -, hsrc⟩ := stringLink_getc hP
  rw [show comparedSource.getc s = .ok (c, t) from hrun]
  refine ⟨c', t', hrun', hL, fun hne => ?_⟩
  rcases hsrc with ⟨h1, -⟩ | ⟨b, hcons, rfl⟩
  · exact absurd h1 hne
  · exact ⟨b, rfl, hcons ▸ hq⟩

theorem readUtf8Once_sim {q : Int} (hq : 1 ≤ q) (hq' : q ≤ 127) :
    InRun (fun s s' => stringLink.Near comparedSource.room e k s s' ∧ quotedOutside q s.source = false)
      (readUtf8Once comparedSource q) (readUtf8CharacterString stringSource q) fun r d' s s' =>
        ∃ d, r = .inr d ∧ stringLink.Quoted comparedSource.room e k d d' s s' := by
  refine (getc_quoted q).bind fun c c' => Sim.of_pre (fun _ _ hP => hP.1.1) fun hc => ?_
  by_cases hne : c = -1
  · rw [if_pos (show c < 0 by omega), if_pos (hc.eof_iff.1 hne)]
    have hset : InRun (fun s s' => stringLink.Look comparedSource.room e k c c' s s' ∧ (c ≠ -1 →
        ∃ b : UInt8, (b.toNat : Int) = c ∧ quotedOutside q (b :: s.source) = false)) (setLastc c) (setLastc 0)
          fun _ _ _ s' => stringLink.aliveRight s'.source := Sim.modify fun _ _ hP => hP.1.2.1.source.2.1
    refine hset.bind fun _ _ => raise_sim.bind fun _ _ => Sim.pure fun _ _ hP => ⟨-1, rfl, .inl hP⟩
  have hpos : 1 ≤ c := by
    rcases hc with ⟨h1, -, -⟩ | ⟨h1, -⟩ | ⟨h128, -, -⟩ <;> omega
  rw [if_neg (show ¬c < 0 by omega), if_neg (mt hc.eof_iff.2 hne), if_neg (show q ≠ -1 by omega),
    if_neg (show q ≠ -1 by omega)]
  refine Sim.ite (fun _ _ _ => hc.eq_iff hq hq') (fun hcq _ => ?_) fun hcq _ => ?_
  · exact ((closeQuoted_sim hq hq' hcq).pre fun _ _ hP => hP.1).map_left fun d _ _ _ hR => ⟨d, rfl, hR⟩
  refine Sim.pre (P := fun s s' => ∃ b : UInt8, (b.toNat : Int) = c ∧
    (stringLink.Look comparedSource.room e k c c' s s' ∧ quotedOutside q (b :: s.source) = false)) (Sim.exists fun b =>
      Sim.and fun hb => ?_) fun s s' hP => (hP.2 hne).imp fun b hb => ⟨hb.1, hP.1, hb.2⟩
  refine Sim.of_pre (fun _ _ hP => (hP.1.next hne).1) fun hk => ?_
  refine Sim.ite (fun _ _ _ => not_congr (hc.eq_iff (by decide) (by decide))) (fun hbs _ => ?_) fun hbs _ => ?_
  · have hcomplete : ∀ rest, quotedOutside q (b :: rest) = false → utf8Complete (b :: rest) = true := by
      intro rest h
      rw [quotedOutside, if_neg (by rwa [hb]), if_neg (by rwa [hb])] at h
      simpa using h
    have hlow := StringChar.lowByte hc hne
    refine Sim.ite (fun _ _ _ => by rw [hlow]) (fun hhigh _ => ?_) fun hhigh _ => ?_
    · subst hb
      refine Sim.map_left (Q := Escaped e (k - 1)) ((utf8Sequence_sim _ _ hlow hhigh).pre fun s s' hP => ?_)
        fun d _ _ _ hR => ⟨d, rfl, hR.quoted hk⟩
      exact ⟨(hP.1.next hne).2, hcomplete _ hP.2⟩
    · have hlt : c < 128 := by
        by_contra hge
        have hbit : ∀ n < 256, 128 ≤ n → n &&& 0x80 ≠ 0 := by decide +kernel
        have h255 : c ≤ 255 := by
          rcases hc with ⟨-, h127, -⟩ | ⟨h1, -⟩ | ⟨-, h255, -⟩ <;> omega
        refine hhigh (hbit _ ?_ ?_) <;> unfold lowByte <;> omega
      have hcc : c' = c := by
        rcases hc with ⟨-, -, h⟩ | ⟨h1, -⟩ | ⟨h128, -, -⟩ <;> omega
      exact Sim.pure fun s s' hP => ⟨c, rfl, .inr ⟨hcc, hP.1.2.1, by have hroom := (hP.1.next hne).2.2; omega⟩⟩
  · have hsame : ∀ rest, quotedOutside q (b :: rest) = false → EscapeSame rest := by
      intro rest h
      rw [quotedOutside, if_neg (by rwa [hb]), if_pos (by rw [hb]; exact not_not.1 hbs)] at h
      exact h
    refine Sim.bind_left (readEscape_sim.pre fun s s' hP => ⟨(hP.1.next hne).2, hsame _ hP.2⟩) fun r d' => ?_
    refine Sim.exists fun d => Sim.and fun hr => ?_
    subst hr
    exact Sim.pure fun _ _ hP => ⟨d, rfl, hP.quoted hk⟩

theorem readUtf8Character_sim {q : Int} (hq : 1 ≤ q) (hq' : q ≤ 127) :
    InRun (stringLink.Near comparedSource.room e k) (cutAt (quotedOutside q) (readUtf8Character comparedSource q))
      (readUtf8CharacterString stringSource q) (stringLink.Quoted comparedSource.room e k) := by
  intro s s' hP
  have hcut : cutAt (quotedOutside q) (readUtf8Character comparedSource q) s =
      (if quotedOutside q s.source then throw .outside else readUtf8Character comparedSource q) s := rfl
  rw [hcut]
  by_cases hout : quotedOutside q s.source = true
  · rw [if_pos hout]
    exact .inl rfl
  · have hloop : readUtf8Character comparedSource q s =
        rounds .rounds (fun _ => readUtf8Once comparedSource q) (s.source.length + 2) () s := rfl
    rw [if_neg hout, hloop]
    exact Sim.rounds_once Trap.rounds (readUtf8Once_sim hq hq') _ s s' ⟨hP, eq_false_of_ne_true hout⟩

end Picat

/-! # Comments and ends of text in step -/

namespace Picat
open Simulation

variable {k : Nat} {c c' : Int}

/-! ## Comments -/

theorem asciiGetc_cases (s : ScanState (List UInt8)) : asciiSource.getc s = .error .outside ∨
    ∃ c t, asciiSource.getc s = .ok (c, t) ∧ fileGetc s = .ok (c, t) ∧ c ≤ 127 := by
  have hcut : asciiSource.getc s = (if highNext s.source then throw .outside else fileGetc) s := rfl
  rw [hcut]
  by_cases hhigh : highNext s.source = true
  · rw [if_pos hhigh]
    exact .inl rfl
  rw [if_neg hhigh]
  cases hs : s.source with
  | nil => exact .inr ⟨-1, s, fileGetc_nil hs, fileGetc_nil hs, by decide⟩
  | cons b rest =>
    refine .inr ⟨b.toNat, _, fileGetc_cons hs, fileGetc_cons hs, ?_⟩
    rw [hs] at hhigh
    have hlow : ¬b.toNat ≥ 128 := by simpa [highNext] using hhigh
    omega

theorem asciiGetc_sim : InRun (stringLink.Near comparedSource.room false k) asciiSource.getc stringSource.getc
    fun c c' s s' => c ≤ 127 ∧ stringLink.Look comparedSource.room false k c c' s s' := by
  intro s s' hP
  obtain ⟨c, t, c', t', hrun, hrun', hL, -⟩ := stringLink_getc hP
  rcases asciiGetc_cases s with hout | ⟨d, u, hd, hd', h127⟩
  · rw [hout]
    exact .inl rfl
  · rw [hd]
    cases hd'.symm.trans hrun
    exact ⟨c', t', hrun', h127, hL⟩

theorem asciiNext_sim : InRun (stringLink.Near comparedSource.room false k) asciiSource.getc stringNext
    fun c c' s s' => (c ≤ 127 ∧ s.source.length = s'.source.rest.length) ∧
      stringLink.Start comparedSource.room k c c' s s' := by
  intro s s' hP
  obtain ⟨c, t, c', t', hrun, hrun', hL, -, -, hsrc⟩ := stringLink_getc hP
  rcases asciiGetc_cases s with hout | ⟨d, u, hd, hd', h127⟩
  · rw [hout]
    exact .inl rfl
  rw [hd]
  cases hd'.symm.trans hrun
  obtain ⟨hrest, hpast, -⟩ := hP.1.source
  rcases hsrc with ⟨rfl, hnil⟩ | ⟨b, hcons, rfl⟩
  · rw [hnil] at hrest
    cases (fileGetc_nil hnil).symm.trans hrun
    refine ⟨0, _, stringNext_nil hrest hpast, ⟨h127, ?_⟩, .inr (.inl ⟨rfl, rfl⟩), ?_, fun h => absurd rfl h⟩
    · rw [hnil]
    · exact hP.1.calm
  · rw [hcons] at hrest
    refine ⟨c', t', (stringNext_cons hrest).trans hrun', ⟨h127, ?_⟩, hL.start⟩
    rw [hL.2.1.source.1]

theorem com2plain_sim : InRun (stringLink.Near comparedSource.room false k)
    (com2plain asciiSource intab.astcom intab.endcom) (com2plainString stringSource intab.astcom intab.endcom)
    fun b b' s s' => b' = b ∧ if b then stringLink.Near comparedSource.room false k s s' else Raised s s' := by
  refine asciiGetc_sim.bind fun c c' => Sim.bind (Q := fun c c' s s' => c ≤ 127 ∧
    stringLink.Look comparedSource.room false k c c' s s') ?_ fun c c' => Sim.and fun h127 => ?_
  · refine SourceStep.loop_of_room (fun j a a' s s' => (j ≤ k ∧ a.1 ≤ 127 ∧ a'.2 = a.2) ∧
      stringLink.Look comparedSource.room false j a.1 a'.1 s s') (fun s s' hP => ⟨?_, ?_⟩) ?_
    · exact sourceStep_string.room hP.2.2.1.source
    · exact hP.2.enter.2.imp fun j hj => ⟨hj.1, ⟨hj.2.1, hP.1, rfl⟩, hj.2.2⟩
    intro j ⟨c, state⟩ ⟨c', state'⟩
    refine Sim.and fun ⟨hj, h127, hstate⟩ => ?_
    obtain rfl : state' = state := hstate
    apply Sim.of_pre (fun _ _ hP => hP.1)
    intro hc
    have heq := sourceStep_string.char hc
    have hpos : c ≥ 0 ↔ c' > 0 := by
      rcases hc with ⟨h1, -, hcc⟩ | ⟨hc1, hc0⟩ | ⟨h128, -, -⟩ <;> omega
    refine Sim.ite (fun _ _ _ => hpos) (fun hc0 _ => ?_) fun _ _ => Sim.pure fun _ _ hP => ⟨h127, hP.mono hj⟩
    refine Sim.ite (fun _ _ _ => ?_) (fun _ _ => Sim.pure fun _ _ hP => ⟨h127, hP.mono hj⟩) fun _ _ => ?_
    · rw [heq _ (by decide) (by decide)]
    · have hne : c ≠ -1 := by omega
      refine Sim.bind (SourceStep.after hne fun _ => asciiGetc_sim) fun d d' => Sim.and fun hj0 => Sim.pure ?_
      refine fun s s' hP => ⟨j - 1, by omega, ⟨by omega, hP.1, ?_⟩, hP.2⟩
      simp only [heq _ (show (1 : Int) ≤ intab.astcom by decide) (by decide)]
  · apply Sim.of_pre (fun _ _ hP => hP.1)
    intro hc
    refine Sim.ite (fun _ _ _ => ?_) (fun _ _ => ?_) fun _ _ => Sim.pure fun _ _ hP => ⟨rfl, hP.near⟩
    · rw [← hc.eof_iff]
      rcases hc with ⟨h1, -, -⟩ | ⟨h1, -⟩ | ⟨h128, -, -⟩ <;> omega
    · exact (setException_failed _ _ fun _ _ hP => hP.2.1).bind fun _ _ => Sim.pure fun _ _ hP => ⟨rfl, hP.1⟩

theorem com0plain_sim : InRun (stringLink.Near comparedSource.room false k) (com0plain asciiSource intab.endeol)
    (com0plainString intab.endeol) (stringLink.Start comparedSource.room k) := by
  refine asciiNext_sim.bind fun c c' => Sim.bind (Q := fun c c' s s' => c ≤ 127 ∧
    stringLink.Start comparedSource.room k c c' s s') ?_ fun c c' => Sim.and fun h127 => ?_
  · refine SourceStep.loop_of_room (fun j c c' s s' => (j ≤ k ∧ c ≤ 127) ∧
      stringLink.Start comparedSource.room j c c' s s') (fun s s' hP => ⟨hP.1.2, ?_⟩) ?_
    · by_cases hne : c = -1
      · exact ⟨0, Nat.zero_le _, ⟨Nat.zero_le _, hP.1.1⟩, hP.2.1, hP.2.2.1, fun h => absurd hne h⟩
      · exact (hP.2.2.2 hne).enter.2.imp fun j hj => ⟨hj.1, ⟨hj.2.1, hP.1.1⟩, hj.2.2.start⟩
    intro j c c'
    refine Sim.and fun ⟨hj, h127⟩ => Sim.of_pre (fun _ _ hP => hP.1) fun hc => ?_
    refine Sim.ite (fun _ _ _ => ?_) (fun hin _ => ?_) fun _ _ => Sim.pure fun _ _ hP => ⟨h127, hP.mono hj⟩
    · have hnl : newline = 10 := rfl
      have hend : intab.endeol = -1 := rfl
      rcases hc with ⟨h1, -, hcc⟩ | ⟨hc1, hc0⟩ | ⟨h128, -, -⟩ <;> omega
    · have hne : c ≠ -1 := by omega
      refine Sim.map ((SourceStep.after hne fun _ => asciiNext_sim).pre fun _ _ hP => hP.2.2 hne) fun d d' s s' hP => ?_
      exact ⟨j - 1, by omega, ⟨by omega, hP.2.1.1⟩, hP.2.2⟩
  · refine Sim.of_pre (fun _ _ hP => hP.1) fun hc => ?_
    refine Sim.ite (fun _ _ _ => ?_) (fun hin _ => ?_) fun _ _ => Sim.pure fun _ _ hP => hP
    · rcases hc with ⟨h1, -, hcc⟩ | ⟨hc1, hc0⟩ | ⟨h128, -, -⟩ <;> omega
    · have hne : c ≠ -1 := by omega
      exact asciiNext_sim.conseq (fun _ _ hP => (hP.2.2 hne).near) fun _ _ _ _ hQ => hQ.2

/-! ## The reader of strings -/

theorem fileGetc_setLastc {s t : ScanState (List UInt8)} (d : Int) (h : fileGetc s = .ok (c, t)) :
    fileGetc { s with lastc := d } = .ok (c, { t with lastc := d }) := by
  obtain ⟨source, lastc, e⟩ := s
  cases source with
  | nil =>
    cases h
    rfl
  | cons b rest =>
    cases h
    rfl

theorem eoln_sim : InRun (stringLink.Near comparedSource.room false k) comparedReader.eoln stringReader.eoln
    (stringLink.PassRel comparedSource.room k) := by
  intro s s' hP
  have hspace : StringChar (ch ' ') (ch ' ') := .inl ⟨by decide, by decide, rfl⟩
  have hP' : stringLink.Near comparedSource.room false k { s with lastc := ch ' ' } { s' with lastc := ch ' ' } :=
    ⟨⟨hP.1.source, hspace, hP.1.left, hP.1.right⟩, hP.2⟩
  obtain ⟨c, t, c', t', hrun, hrun', hL, -, hlast, -⟩ := stringLink_getc hP'
  obtain ⟨d, u, hd⟩ : ∃ d u, fileGetc s = .ok (d, u) := (stringLink_getc hP).imp fun d hd => hd.imp fun u hu => by
    obtain ⟨-, -, hu, -⟩ := hu
    exact hu
  have hrun2 := (fileGetc_setLastc (ch ' ') hd).symm.trans hrun
  have hleft : comparedReader.eoln s = .ok (.eoln d, { u with lastc := ch ' ' }) := by
    have hbind : comparedReader.eoln s = fileGetc s >>= fun x => .ok (.eoln x.1, { x.2 with lastc := ch ' ' }) := rfl
    rw [hbind, hd]
    rfl
  rw [hleft]
  cases hrun2
  exact ⟨.token .endcl, { s' with lastc := ch ' ' }, rfl, rfl, rfl, hP.1.calm.2, c', t', hrun', hlast, hL.start⟩

theorem atEnd_sim (fl : Flags) : InRun (stringLink.Start comparedSource.room k (-1) 0)
    (scanToken comparedReader fl (-1)) (scanToken stringReader fl 0) (stringLink.PassRel comparedSource.room k) :=
  fun _ s' hP => ⟨.token .endcl, { s' with lastc := ch ' ' }, rfl, .inr ⟨hP.2.1, .inl ⟨rfl, rfl⟩⟩⟩

theorem inStep_string (fl : Flags) : InStep stringLink comparedReader stringReader fl where
  toSourceStep := sourceStep_string
  readUtf8Character _ _ _ hq hq' := readUtf8Character_sim hq hq'
  com0plain _ := com0plain_sim
  com2plain _ := com2plain_sim
  eoln _ := eoln_sim
  atNul hc hne := ⟨rfl, decide_eq_false (mt (StringChar.eof_iff hc).2 hne)⟩
  atEnd _ _ hc := by
    obtain rfl := (StringChar.eof_iff hc).1 rfl
    exact atEnd_sim fl

end Picat
