import Picat.Token.Scan

/-!
# Readers and `AtomStr`

The readers of characters neither write outside `AtomStr` nor give back more characters than they have taken.

* `QuietReader.scanBase`, `QuietReader.scanRadixDigits` : numbers with a letter or a radix.
-/

namespace Picat
open Simulation

variable {σ α β : Type}

/-- At most `k` bytes are to come, and with `raised` there is an exception. -/
def Room (src : Source σ) (raised : Bool) (k : Nat) (s : ScanState σ) : Prop :=
  src.room s.source ≤ k ∧ (raised = true → s.bpException ≠ none)

theorem Room.mono {src : Source σ} {raised : Bool} {k k' : Nat} {s : ScanState σ} (h : Room src raised k s)
    (hk : k ≤ k') : Room src raised k' s := ⟨Nat.le_trans h.1 hk, h.2⟩

/-- A program that does not write outside `AtomStr` and takes no exception back, after which at most `j` bytes more are to
come. -/
def Grows (src : Source σ) (j : Nat) (m : Scan σ α) : Prop :=
  ∀ raised k, Triple (· ≠ Trap.buffer) (Room src raised k) m fun _ => Room src raised (k + j)

namespace Grows

variable {src : Source σ} {i j : Nat} {m : Scan σ α}

theorem not_buffer (h : Grows src j m) (s : ScanState σ) : m s ≠ .error .buffer := by
  intro hs
  have h := h false (src.room s.source) s ⟨Nat.le_refl _, nofun⟩
  rw [hs] at h
  exact h rfl

theorem mono (h : Grows src i m) (hij : i ≤ j) : Grows src j m := fun raised k =>
  (h raised k).conseq (fun _ hs => hs) fun _ _ hs => hs.mono (Nat.add_le_add_left hij k)

theorem pure (a : α) : Grows src j (Pure.pure a : Scan σ α) := fun _ _ =>
  Triple.pure fun _ hs => hs.mono (Nat.le_add_right _ _)

theorem bind {f : α → Scan σ β} (hm : Grows src i m) (hf : ∀ a, Grows src j (f a)) : Grows src (i + j) (m >>= f) := by
  intro raised k
  rw [← Nat.add_assoc]
  exact (hm raised k).bind fun a => hf a raised (k + i)

theorem bind_left {f : α → Scan σ β} (hm : Grows src 0 m) (hf : ∀ a, Grows src j (f a)) : Grows src j (m >>= f) :=
  (hm.bind hf).mono (by omega)

theorem map (f : α → β) (hm : Grows src j m) : Grows src j (f <$> m) := fun raised k =>
  Triple.map (R := fun _ => Room src raised (k + j)) (hm raised k)

theorem ite {p : Prop} [Decidable p] {n : Scan σ α} (hm : p → Grows src j m) (hn : ¬ p → Grows src j n) :
    Grows src j (if p then m else n) := fun raised k =>
  Triple.ite (fun h => hm h raised k) fun h => hn h raised k

theorem lookup (a : Option α) : Grows src j (Picat.lookup a : Scan σ α) := by
  cases a with
  | none => exact fun _ _ => Triple.throw (by decide)
  | some a => exact pure a

theorem setException (e : TokenError) : Grows src j (Picat.setException e : Scan σ Unit) := fun _ _ =>
  Triple.modify fun _ hs => ⟨Nat.le_add_right_of_le hs.1, fun _ => nofun⟩

theorem setLastc (c : Int) : Grows src j (Picat.setLastc c : Scan σ Unit) := fun _ _ =>
  Triple.modify fun _ hs => ⟨Nat.le_add_right_of_le hs.1, hs.2⟩

theorem when {p : Prop} [Decidable p] {m : Scan σ Unit} (h : p → Grows src j m) : Grows src j (Picat.when p m) :=
  ite h fun _ => pure ()

theorem fail (e : TokenError) : Grows src j (Picat.fail e : Scan σ Pass) :=
  (setException e).bind_left fun _ => pure _

theorem endToken (c : Int) (t : Token) : Grows src j (Picat.endToken c t : Scan σ Pass) :=
  (setLastc c).bind_left fun _ => pure _

theorem loop {body : α → Scan σ (α ⊕ β)} (h : ∀ a, Grows src 0 (body a)) (a : α) : Grows src 0 (src.loop body a) := by
  intro raised k
  have hloop : ∀ fuel, Triple (· ≠ Trap.buffer) (Room src raised k) (rounds .rounds body fuel a)
      fun _ => Room src raised k :=
    fun fuel => Triple.rounds (I := fun _ => Room src raised k) (by decide)
      (fun a => (h a raised k).conseq (fun _ hs => hs) fun r _ hs => by cases r <;> exact hs) fuel a
  exact fun s hs => hloop _ s hs

theorem escapeEnd (n c : Int) : Grows src j (Picat.escapeEnd n c : Scan σ Int) :=
  (when fun _ => setException _).bind_left fun _ => pure _

theorem handleEolInQuoted2 : Grows src j (Picat.handleEolInQuoted2 : Scan σ Int) :=
  (setLastc 0).bind_left fun _ => (setException _).bind_left fun _ => pure _

end Grows

/-- A source whose operations do not write outside `AtomStr` and which gives back what it has taken; `eof` is taken from
nothing. -/
structure QuietSource (src : Source σ) (eof : Int) : Prop where
  getc : ∀ raised k, Triple (· ≠ Trap.buffer) (Room src raised k) src.getc fun c s =>
    Room src raised k s ∧ (c ≠ eof → 1 ≤ k ∧ Room src raised (k - 1) s)
  ungetc : ∀ c, Grows src 1 (src.ungetc c)
  inType : ∀ c, Grows src 0 (src.inType c)
  digVal : ∀ c, Grows src 0 (src.digVal c)
  eof_cases : eof = -1 ∨ eof = 0

namespace QuietSource

variable {src : Source σ} {eof : Int} (h : QuietSource src eof)
include h

theorem getc_back {f : Int → Scan σ α} {j : Nat} (hend : Grows src j (f eof))
    (hf : ∀ c, c ≠ eof → Grows src (j + 1) (f c)) : Grows src j (src.getc >>= f) := by
  intro raised k
  apply (h.getc raised k).bind
  intro c
  by_cases hc : c = eof
  · rw [hc]
    exact (hend raised k).conseq (fun _ hs => hs.1) fun _ _ hs => hs
  · intro s hs
    obtain ⟨hk, hroom⟩ := hs.2 hc
    have hf := hf c hc raised (k - 1) s hroom
    rwa [show k - 1 + (j + 1) = k + j by omega] at hf

theorem getc_bind {f : Int → Scan σ α} {j : Nat} (hf : ∀ c, Grows src j (f c)) : Grows src j (src.getc >>= f) :=
  h.getc_back (hf eof) fun c _ => (hf c).mono (Nat.le_succ j)

theorem getc_map (f : Int → α) : Grows src 0 (f <$> src.getc) := fun raised k =>
  Triple.map (R := fun _ => Room src raised k) ((h.getc raised k).conseq (fun _ hs => hs) fun _ _ hs => hs.1)

theorem getc' : Grows src 0 src.getc := fun raised k => (h.getc raised k).conseq (fun _ hs => hs) fun _ _ hs => hs.1

theorem isContinuation_eof : isContinuation eof = false := by
  rcases h.eof_cases with rfl | rfl <;> decide

theorem back (p : Prop) [Decidable p] (b : Int) {j : Nat} {m : Scan σ Int} (hm : Grows src j m) :
    Grows src (j + 1) (Picat.when p (src.ungetc b) >>= fun _ => m) :=
  ((Grows.when fun _ => h.ungetc b).bind fun _ => hm).mono (by omega)

theorem utf8Sequence {back2 : Int → Bool} (hback2 : back2 eof = false) (c : Int) :
    Grows src 0 (utf8Sequence src back2 c) := by
  have hpure : ∀ j, Grows src j (pure c : Scan σ Int) := fun _ => Grows.pure c
  have hnone : ∀ (p : Prop) [Decidable p] (b : Int), ¬ p →
      Grows src 0 (Picat.when p (src.ungetc b) >>= fun _ => (pure c : Scan σ Int)) := by
    intro p _ b hp
    rw [when_neg hp]
    exact (Grows.pure _).bind_left fun _ => hpure 0
  have hcont := h.isContinuation_eof
  have hpos : ¬ eof > 0 := by rcases h.eof_cases with rfl | rfl <;> decide
  unfold Picat.utf8Sequence
  refine Grows.ite (fun _ => h.getc_back ?_ fun b2 _ => ?_) fun _ => Grows.ite
    (fun _ => h.getc_back ?_ fun b2 _ => ?_) fun _ => Grows.ite (fun _ => h.getc_back ?_ fun b2 _ => ?_) fun _ => hpure 0
  · rw [hcont, if_neg Bool.false_ne_true]
    exact hnone _ _ (by rw [hback2]; decide)
  · exact Grows.ite (fun _ => Grows.pure _) fun _ => h.back _ _ (hpure 0)
  · rw [hcont, if_neg Bool.false_ne_true]
    exact hnone _ _ hpos
  · refine Grows.ite (fun _ => h.getc_back ?_ fun b3 _ => ?_) fun _ => h.back _ _ (hpure 0)
    · rw [hcont, if_neg Bool.false_ne_true, when_neg hpos]
      exact (Grows.pure _).bind_left fun _ => ((h.ungetc b2).bind fun _ => hpure 0).mono (by omega)
    · refine Grows.ite (fun _ => Grows.pure _) fun _ => h.back _ _ ?_
      exact ((h.ungetc b2).bind fun _ => hpure 0).mono (by omega)
  · rw [hcont, if_neg Bool.false_ne_true]
    exact hnone _ _ hpos
  · refine Grows.ite (fun _ => h.getc_back ?_ fun b3 _ => ?_) fun _ => h.back _ _ (hpure 0)
    · rw [hcont, if_neg Bool.false_ne_true, when_neg hpos]
      exact (Grows.pure _).bind_left fun _ => ((h.ungetc b2).bind fun _ => hpure 0).mono (by omega)
    · refine Grows.ite (fun _ => h.getc_back ?_ fun b4 _ => ?_) fun _ => h.back _ _ ?_
      · rw [hcont, if_neg Bool.false_ne_true, when_neg hpos]
        refine (Grows.pure _).bind_left fun _ => ((h.ungetc b3).bind fun _ => (h.ungetc b2).bind fun _ => hpure 0).mono ?_
        omega
      · refine Grows.ite (fun _ => Grows.pure _) fun _ => h.back _ _ ?_
        exact ((h.ungetc b3).bind fun _ => (h.ungetc b2).bind fun _ => hpure 0).mono (by omega)
      · exact ((h.ungetc b2).bind fun _ => hpure 0).mono (by omega)

/-- The character `c` has been taken, unless it is the end. -/
def Taken (src : Source σ) (eof : Int) (raised : Bool) (k : Nat) (c : Int) (s : ScanState σ) : Prop :=
  Room src raised k s ∧ (c ≠ eof → 1 ≤ k ∧ Room src raised (k - 1) s)

theorem escapeDigits_taken (eof' base n : Int) (raised : Bool) (k : Nat) :
    Triple (· ≠ Trap.buffer) (Room src raised k) (Picat.escapeDigits src eof' base n) fun r s =>
      Room src raised k s ∧ ∀ c, r.2 = some c → Taken src eof raised k c s := by
  apply (h.getc raised k).bind
  intro c s hs
  refine Triple.rounds (I := fun (a : Int × Int) => Taken src eof raised k a.2) (by decide) (fun a => ?_) _ (n, c) s hs
  refine Triple.ite (fun _ => Triple.pure fun s hs => ⟨hs.1, fun c hc => by cases hc; exact hs⟩) fun _ => ?_
  have hdig : Triple (· ≠ Trap.buffer) (Taken src eof raised k a.2) (src.digVal a.2) fun _ => Room src raised k :=
    (h.digVal a.2 raised k).conseq (fun _ hs => hs.1) fun _ _ hs => hs
  refine hdig.bind fun v => Triple.ite (fun _ => ?_) fun _ => ?_
  · exact (h.getc raised k).bind fun c => Triple.pure fun _ hs => hs
  · have hexc : Grows src 0 (Picat.setException .inCharacter : Scan σ Unit) := Grows.setException _
    exact (hexc raised k).bind fun _ => Triple.pure fun _ hs => ⟨hs, nofun⟩

theorem escapeDigits (eof' base n : Int) : Grows src 0 (escapeDigits src eof' base n) := fun raised k =>
  (h.escapeDigits_taken eof' base n raised k).conseq (fun _ hs => hs) fun _ _ hs => hs.1

theorem escapeNumber (base n : Int) : Grows src 0 (escapeNumber src base n) := by
  apply (h.escapeDigits (-1) base n).bind_left
  rintro ⟨n, c⟩
  cases c with
  | none => exact Grows.pure _
  | some c => exact Grows.escapeEnd n c

theorem escapeNumberString (base n : Int) : Grows src 0 (escapeNumberString src base n) := by
  intro raised k
  apply (h.escapeDigits_taken 0 base n raised k).bind
  rintro ⟨n, c⟩
  cases c with
  | none => exact Triple.pure fun _ hs => hs.1
  | some c =>
    intro s hs
    have htaken := hs.2 c rfl
    by_cases hc : c = newline
    · have hne : c ≠ eof := by
        rw [hc]
        rcases h.eof_cases with heof | heof <;> rw [heof] <;> decide
      obtain ⟨hk, hroom⟩ := htaken.2 hne
      have hback : Grows src 1 (Picat.when (c = newline) (src.ungetc c) >>= fun _ => Picat.escapeEnd n c) :=
        h.back _ _ (Grows.escapeEnd n c)
      have hrun := hback raised (k - 1) s hroom
      rwa [show k - 1 + 1 = k + 0 by omega] at hrun
    · have hback : Grows src 0 (Picat.when (c = newline) (src.ungetc c) >>= fun _ => Picat.escapeEnd n c) := by
        rw [when_neg hc]
        exact (Grows.pure _).bind_left fun _ => Grows.escapeEnd n c
      exact hback raised k s htaken.1

theorem unicodeDigits : ∀ (k : Nat) (n : Int), Grows src 0 (unicodeDigits src k n) := by
  intro k
  induction k with
  | zero => exact fun n => Grows.pure _
  | succ k ih =>
    intro n
    exact h.getc_bind fun c => (h.digVal c).bind_left fun v => Grows.ite (fun _ => ih _)
      fun _ => (Grows.setException _).bind_left fun _ => Grows.pure _

theorem escapeUnicode : Grows src 0 (escapeUnicode src) := by
  refine (h.unicodeDigits 4 0).bind_left fun ⟨n, good⟩ => ?_
  cases good with
  | false => exact Grows.pure _
  | true =>
    have htail : ∀ j m, Grows src j ((Picat.unicodeDigits src 3 m >>= fun r => pure (cInt r.1)) : Scan σ Int) :=
      fun j m => ((h.unicodeDigits 3 m).mono (Nat.zero_le j)).bind fun _ => Grows.pure (j := 0) _
    have hpos : ¬ eof > 0 := by rcases h.eof_cases with rfl | rfl <;> decide
    refine h.getc_back ?_ fun c _ => ?_
    · refine (h.digVal eof).bind_left fun v => Grows.ite (fun _ => htail 0 _) fun _ => ?_
      rw [when_neg hpos]
      exact (Grows.pure _).bind_left fun _ => Grows.pure _
    · refine ((h.digVal c).mono (Nat.zero_le 0)).bind_left fun v => Grows.ite (fun _ => htail 1 _) fun _ => ?_
      exact (Grows.when fun _ => h.ungetc c).bind fun _ => Grows.pure (j := 0) _

theorem readEscape : Grows src 0 (readEscape src) := by
  refine h.getc_bind fun c => Grows.ite (fun _ => (Grows.setException _).bind_left fun _ => Grows.pure _)
    fun _ => Grows.ite (fun _ => h.getc_bind fun _ => Grows.pure _) fun _ => Grows.ite (fun _ => Grows.pure _) fun _ => ?_
  cases escapeLetter c with
  | some d => exact Grows.pure _
  | none =>
    refine Grows.ite (fun _ => (h.escapeNumber 16 0).map _) fun _ => Grows.ite (fun _ => h.escapeUnicode.map _)
      fun _ => Grows.ite (fun _ => ?_) fun _ => ?_
    · exact (h.digVal c).bind_left fun n => (h.escapeNumber 8 n).map _
    · exact (Grows.setException _).bind_left fun _ => Grows.pure _

theorem closeQuoted (q : Int) : Grows src 0 (closeQuoted src q) :=
  h.getc_bind fun c => Grows.ite (fun _ => Grows.pure _) fun _ => (Grows.setLastc c).bind_left fun _ => Grows.pure _

theorem readEscapeString : Grows src 0 (readEscapeString src) := by
  refine h.getc_bind fun c => Grows.ite (fun _ => Grows.handleEolInQuoted2) fun _ => ?_
  cases escapeLetter c with
  | some d => exact Grows.pure _
  | none =>
    refine Grows.ite (fun _ => h.escapeNumberString 16 0) fun _ => Grows.ite (fun _ => h.escapeUnicode)
      fun _ => Grows.ite (fun _ => ?_) fun _ => ?_
    · exact (h.digVal c).bind_left fun n => h.escapeNumberString 8 n
    · exact (Grows.setException _).bind_left fun _ => Grows.pure _

/-- A program that gives a code only after it has taken a character for it. -/
def Consumes (src : Source σ) (m : Scan σ Int) : Prop :=
  ∀ raised k, Triple (· ≠ Trap.buffer) (Room src raised k) m fun d s =>
    Room src raised k s ∧ (0 ≤ d → 1 ≤ k ∧ Room src raised (k - 1) s)

theorem readUtf8Character (heof : eof = -1) (q : Int) : Consumes src (Picat.readUtf8Character src q) := by
  intro raised k
  have hloop : ∀ fuel, Triple (· ≠ Trap.buffer) (Room src raised k) (rounds .rounds (fun _ => readUtf8Once src q) fuel ())
      fun d s => Room src raised k s ∧ (0 ≤ d → 1 ≤ k ∧ Room src raised (k - 1) s) := by
    refine fun fuel => Triple.rounds (I := fun _ => Room src raised k) (by decide) (fun _ => ?_) fuel ()
    refine (h.getc raised k).bind fun c => ?_
    have hrest : 0 ≤ c → ∀ {m : Scan σ (Unit ⊕ Int)}, Grows src 0 m →
        Triple (· ≠ Trap.buffer) (Taken src eof raised k c) m fun r s => r.elim (fun _ => Room src raised k s)
          fun d => Room src raised k s ∧ (0 ≤ d → 1 ≤ k ∧ Room src raised (k - 1) s) := by
      intro hc m hm
      apply Triple.of_pre (φ := 1 ≤ k) (fun s hs => (hs.2 (by omega)).1)
      intro hk
      apply (hm raised (k - 1)).conseq (fun s hs => (hs.2 (by omega)).2)
      intro r s hs
      have hle : Room src raised k s := hs.mono (by omega)
      cases r with
      | inl => exact hle
      | inr d => exact ⟨hle, fun _ => ⟨hk, hs⟩⟩
    refine Triple.ite (fun hneg => ?_) fun hc => Triple.ite (fun _ => ?_) fun _ => Triple.ite (fun _ => ?_) fun _ =>
      Triple.ite (fun _ => Triple.ite (fun _ => ?_) fun _ => ?_) fun _ => ?_
    · have hend : Grows src 0 (Picat.setLastc c >>= fun _ => Picat.setException .inCharacter : Scan σ Unit) :=
        (Grows.setLastc c).bind_left fun _ => Grows.setException _
      intro s hs
      exact ⟨hend raised k s hs.1, by omega⟩
    · exact hrest (not_lt.1 hc) (Grows.pure _)
    · exact hrest (not_lt.1 hc) ((h.closeQuoted q).map _)
    · exact hrest (not_lt.1 hc) ((h.utf8Sequence (by rw [heof]; decide) c).map _)
    · exact hrest (not_lt.1 hc) (Grows.pure _)
    · apply hrest (not_lt.1 hc)
      apply h.readEscape.bind_left
      intro d
      cases d <;> exact Grows.pure _
  exact fun s hs => hloop _ s hs

theorem readUtf8CharacterString (heof : eof = 0) (q : Int) : Consumes src (Picat.readUtf8CharacterString src q) := by
  intro raised k
  refine (h.getc raised k).bind fun c => ?_
  have hrest : c ≠ 0 → ∀ {m : Scan σ Int}, Grows src 0 m →
      Triple (· ≠ Trap.buffer) (Taken src eof raised k c) m fun d s =>
        Room src raised k s ∧ (0 ≤ d → 1 ≤ k ∧ Room src raised (k - 1) s) := by
    intro hc m hm
    rw [← heof] at hc
    apply Triple.of_pre (φ := 1 ≤ k) (fun s hs => (hs.2 hc).1)
    intro hk
    apply (hm raised (k - 1)).conseq (fun s hs => (hs.2 hc).2)
    intro d s hs
    exact ⟨hs.mono (by omega), fun _ => ⟨hk, hs⟩⟩
  refine Triple.ite (fun _ s hs => ?_) fun hc => Triple.ite (fun _ => ?_) fun _ => Triple.ite (fun _ => ?_) fun _ =>
    Triple.ite (fun _ => Triple.ite (fun _ => ?_) fun _ => ?_) fun _ => ?_
  · have hend : Grows src 0 (Picat.handleEolInQuoted2 : Scan σ Int) := Grows.handleEolInQuoted2
    exact ⟨hend raised k s hs.1, fun h0 => absurd h0 (by decide)⟩
  · exact hrest hc (Grows.pure _)
  · exact hrest hc (h.closeQuoted q)
  · exact hrest hc (h.utf8Sequence (by rw [heof]; decide) c)
  · exact hrest hc (Grows.pure _)
  · exact hrest hc h.readEscapeString

theorem com0plain (endeol : Int) : Grows src 0 (com0plain src endeol) := by
  refine h.getc_bind fun c => (Grows.loop (fun c => ?_) c).bind_left fun c => Grows.ite (fun _ => h.getc') fun _ => Grows.pure _
  exact Grows.ite (fun _ => h.getc_map _) fun _ => Grows.pure _

theorem comment (p : Int → Prop) [DecidablePred p] (astcom endcom c : Int) :
    Grows src 0 (src.loop (fun ((c, state) : Int × Bool) => do
      if p c then
        if c = endcom ∧ state then pure (.inr c)
        else
          let d ← src.getc
          pure (.inl (d, decide (c = astcom)))
      else pure (.inr c)) (c, false)) := by
  refine Grows.loop (fun ⟨c, state⟩ => Grows.ite (fun _ => Grows.ite (fun _ => Grows.pure _) fun _ => ?_)
    fun _ => Grows.pure _) (c, false)
  exact h.getc_bind fun d => Grows.pure _

theorem com2plain (astcom endcom : Int) : Grows src 0 (com2plain src astcom endcom) :=
  h.getc_bind fun c => (h.comment (· ≥ 0) astcom endcom c).bind_left fun _ => Grows.ite
    (fun _ => (Grows.setException _).bind_left fun _ => Grows.pure _) fun _ => Grows.pure _

theorem com2plainString (astcom endcom : Int) : Grows src 0 (com2plainString src astcom endcom) :=
  h.getc_bind fun c => (h.comment (· > 0) astcom endcom c).bind_left fun _ => Grows.ite
    (fun _ => (Grows.setException _).bind_left fun _ => Grows.pure _) fun _ => Grows.pure _

end QuietSource

/-! ## Files and strings -/

theorem quiet_fileSource : QuietSource fileSource (-1) where
  getc := by
    rintro raised k ⟨r, lastc, e⟩ hs
    cases r with
    | nil => exact ⟨hs, fun h => absurd rfl h⟩
    | cons b r =>
      have hlen : r.length + 1 ≤ k := hs.1
      exact ⟨⟨Nat.le_of_succ_le hlen, hs.2⟩, fun _ => ⟨by omega, show r.length ≤ k - 1 by omega, hs.2⟩⟩
  ungetc := by
    intro c raised k s hs
    have hlen : s.source.length ≤ k := hs.1
    by_cases h : toCHAR c = -1
    · have hrun : fileSource.ungetc c s = .ok ((), s) := by
        show (if _ then _ else _ : Scan _ Unit) s = _
        rw [if_pos h]
        rfl
      rw [hrun]
      exact hs.mono (Nat.le_succ k)
    · have hrun : fileSource.ungetc c s = .ok ((), { s with source := toBYTE c :: s.source }) := by
        show (if _ then _ else _ : Scan _ Unit) s = _
        rw [if_neg h]
        rfl
      rw [hrun]
      exact ⟨Nat.succ_le_succ hlen, hs.2⟩
  inType _ := Grows.lookup _
  digVal _ := Grows.lookup _
  eof_cases := .inl rfl

theorem quiet_stringSource : QuietSource stringSource 0 where
  getc := by
    rintro raised k ⟨⟨before, rest, past⟩, lastc, e⟩ hs
    cases past with
    | true => exact (by decide : Trap.string ≠ .buffer)
    | false =>
      cases rest with
      | nil => exact ⟨hs, fun h => absurd rfl h⟩
      | cons b rest =>
        have hlen : rest.length + 1 ≤ k := hs.1
        exact ⟨⟨Nat.le_of_succ_le hlen, hs.2⟩, fun _ => ⟨by omega, show rest.length ≤ k - 1 by omega, hs.2⟩⟩
  ungetc := by
    rintro c raised k ⟨⟨before, rest, past⟩, lastc, e⟩ hs
    have hlen : rest.length ≤ k := hs.1
    cases past with
    | true => exact ⟨Nat.le_succ_of_le hlen, hs.2⟩
    | false =>
      cases before with
      | nil => exact (by decide : Trap.string ≠ .buffer)
      | cons b before => exact ⟨Nat.succ_le_succ hlen, hs.2⟩
  inType _ := Grows.lookup _
  digVal _ := Grows.lookup _
  eof_cases := .inr rfl

theorem grows_stringNext : Grows stringSource 0 stringNext := by
  rintro raised k ⟨⟨before, rest, past⟩, lastc, e⟩ hs
  have hlen : rest.length ≤ k := hs.1
  cases past with
  | true => exact (by decide : Trap.string ≠ .buffer)
  | false =>
    cases rest with
    | nil => exact ⟨hlen, hs.2⟩
    | cons b rest => exact ⟨Nat.le_of_succ_le hlen, hs.2⟩

theorem grows_com0plainString (endeol : Int) : Grows stringSource 0 (com0plainString endeol) := by
  refine grows_stringNext.bind_left fun c => (Grows.loop (fun c => ?_) c).bind_left fun c =>
    Grows.ite (fun _ => grows_stringNext) fun _ => Grows.pure _
  exact Grows.ite (fun _ => grows_stringNext.map _) fun _ => Grows.pure _

/-- A reader whose operations do not write outside `AtomStr`. -/
structure QuietReader (R : Reader σ) (eof : Int) : Prop where
  source : QuietSource R.toSource eof
  readUtf8Character : ∀ q, QuietSource.Consumes R.toSource (R.readUtf8Character q)
  com0plain : ∀ c, Grows R.toSource 0 (R.com0plain c)
  com2plain : ∀ c d, Grows R.toSource 0 (R.com2plain c d)
  eoln : Grows R.toSource 0 R.eoln

theorem quiet_fileReader : QuietReader fileReader (-1) where
  source := quiet_fileSource
  readUtf8Character := quiet_fileSource.readUtf8Character rfl
  com0plain := quiet_fileSource.com0plain
  com2plain := quiet_fileSource.com2plain
  eoln := quiet_fileSource.getc_bind fun _ => (Grows.setLastc _).bind_left fun _ => Grows.pure _

theorem quiet_stringReader : QuietReader stringReader 0 where
  source := quiet_stringSource
  readUtf8Character := quiet_stringSource.readUtf8CharacterString rfl
  com0plain := grows_com0plainString
  com2plain := quiet_stringSource.com2plainString
  eoln := Grows.endToken _ _

/-! ## Numbers with a letter or a radix -/

namespace QuietReader

variable {R : Reader σ} {eof : Int} (h : QuietReader R eof)
include h

theorem reads (q : Int) : Grows R.toSource 0 (R.readUtf8Character q) := fun raised k =>
  (h.readUtf8Character q raised k).conseq (fun _ hs => hs) fun _ _ hs => hs.1

theorem nextDigit : Grows R.toSource 0 (nextDigit R) :=
  h.source.getc_bind fun c =>
    Grows.loop (fun _ => Grows.ite (fun _ => h.source.getc_map _) fun _ => Grows.pure _) c

theorem baseTail {γ : Type} (base : Int) (a : γ) (t : Token) : Grows R.toSource 0 (do
      let c ← Picat.nextDigit R
      let v ← R.digVal c
      if v ≥ 0 ∧ v < base then pure (.inl (a, c)) else if v < 99 then .inr <$> fail .integer
        else .inr <$> endToken c t : Scan σ (γ × Int ⊕ Pass)) :=
  h.nextDigit.bind_left fun c => (h.source.digVal c).bind_left fun _ => Grows.ite (fun _ => Grows.pure _)
    fun _ => Grows.ite (fun _ => (Grows.fail _).map _) fun _ => (Grows.endToken _ _).map _

theorem scanBaseBigint (base : Int) (radInt : Term) (c : Int) : Grows R.toSource 0 (scanBaseBigint R base radInt c) := by
  refine Grows.loop (fun ⟨radInt, c⟩ => (h.source.digVal c).bind_left fun v => ?_) _
  cases bigintStep radInt base v with
  | error e => exact (Grows.fail _).map _
  | ok radInt => exact h.baseTail base radInt _

theorem scanBase (base : Int) : Grows R.toSource 0 (scanBase R base) := by
  refine h.source.getc_bind fun c => (h.source.digVal c).bind_left fun v => Grows.ite (fun _ => Grows.fail _) fun _ => ?_
  refine Grows.loop (fun ⟨oldv, c⟩ => (h.source.digVal c).bind_left fun v => Grows.ite (fun _ => ?_) fun _ => ?_) _
  · exact (h.scanBaseBigint base _ c).map _
  · exact h.baseTail base _ _

theorem endRadix (t : Token) (c : Int) : Grows R.toSource 0 (endRadix R t c) :=
  Grows.ite (fun _ => h.source.getc_bind fun _ => Grows.endToken _ _) fun _ => Grows.endToken _ _

theorem scanRadixBigint (d : Int) (radInt : Term) (c : Int) : Grows R.toSource 0 (scanRadixBigint R d radInt c) := by
  refine Grows.loop (fun ⟨radInt, c⟩ => (h.source.digVal c).bind_left fun v => Grows.ite (fun _ => ?_)
    fun _ => (h.endRadix _ _).map _) _
  refine Grows.ite (fun _ => Grows.ite (fun _ => (Grows.fail _).map _) fun _ => ?_) fun _ =>
    h.source.getc_bind fun _ => Grows.pure _
  cases bigintStep radInt d v with
  | error e => exact (Grows.fail _).map _
  | ok radInt => exact h.source.getc_bind fun _ => Grows.pure _

theorem scanRadixDigits (d c : Int) : Grows R.toSource 0 (scanRadixDigits R d c) := by
  refine Grows.loop (fun ⟨oldv, c⟩ => (h.source.digVal c).bind_left fun v => Grows.ite (fun _ => ?_)
    fun _ => (h.endRadix _ _).map _) _
  refine Grows.ite (fun _ => Grows.ite (fun _ => (Grows.fail _).map _) fun _ => ?_) fun _ =>
    h.source.getc_bind fun _ => Grows.pure _
  exact Grows.ite (fun _ => (h.scanRadixBigint d _ c).map _) fun _ => h.source.getc_bind fun _ => Grows.pure _

theorem scanRadix {s : List UInt8} (hlen : s.length < maxStrLen) : Grows R.toSource 0 (scanRadix R s) := by
  have hput : Grows R.toSource 0 (putEnd s : Scan σ Unit) := by
    rw [putEnd, if_pos hlen]
    exact Grows.pure _
  apply hput.bind_left
  intro _
  cases radixOf 0 s with
  | none => exact Grows.fail _
  | some d =>
    refine Grows.ite (fun _ => ?_) fun _ => h.source.getc_bind fun c => h.scanRadixDigits d c
    exact (h.reads _).bind_left fun d => h.source.getc_bind fun c => h.endRadix _ c

end QuietReader

end Picat
