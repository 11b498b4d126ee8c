import Picat.Token.InStep

/-!
# Texts on which the tokenizers are compared

The copy for strings treats some characters in another way than the copy for files. `comparedReader` is the reader of
files that stops where it meets one of them:

* a decimal number and a point at the very end of the text.

`CutReader.reading` : it stops, or gives the tokens that the reader of files gives.
-/

namespace Picat
open Simulation

/-! ## The reader -/

def utf8Complete : List UInt8 → Bool
  | [] => true
  | c :: rest =>
    let next (i : Nat) : Bool := (rest[i]?).any fun b => isContinuation b.toNat
    if lowByte c.toNat &&& 0x80 = 0 then true
    else if lowByte c.toNat &&& 0xe0 = 0xc0 then next 0
    else if lowByte c.toNat &&& 0xf0 = 0xe0 then next 0 && next 1
    else if lowByte c.toNat &&& 0xf8 = 0xf0 then next 0 && next 1 && next 2
    else false

/-- The next character of an item that `q` encloses is one that the two readers treat differently. -/
def quotedOutside (q : Int) : List UInt8 → Bool
  | [] => false
  | c :: rest =>
    if (c.toNat : Int) = q then false
    else if (c.toNat : Int) = backslash then
      rest.head?.any fun d => (d.toNat : Int) = newline ∨ (d.toNat : Int) = carriageReturn ∨ (d.toNat : Int) = ch 'X'
    else !utf8Complete (c :: rest)

/-- `m`, which is cut off where `p` holds of what is to come. -/
def cutAt {σ α : Type} (p : σ → Bool) (m : Scan σ α) : Scan σ α := do
  if p (← get).source then throw .outside else m

/-- The streams, up to bytes from 128 on that go to a table, and up to a character given back at the end. -/
def comparedSource : Source (List UInt8) where
  getc := fileGetc
  ungetc c := if c = -1 ∨ c ≥ 128 then throw .outside else fileUngetc c
  inType c := if c ≥ 128 then throw .outside else lookup (inTypeOf c)
  digVal c := if c ≥ 128 then throw .outside else lookup (digValOf c)
  room rest := rest.length

def highNext (rest : List UInt8) : Bool := rest.head?.any fun b => b.toNat ≥ 128

def asciiSource : Source (List UInt8) := { comparedSource with getc := cutAt highNext fileGetc }

def comparedReader : Reader (List UInt8) where
  toSource := comparedSource
  atNul _ := false
  readUtf8Character q := cutAt (quotedOutside q) (readUtf8Character comparedSource q)
  com0plain := com0plain asciiSource
  com2plain := com2plain asciiSource
  radixError := .intOverflow
  eoln := fileReader.eoln

/-! ## It is the reader of files, cut off -/

variable {σ α β : Type}

/-- A program that is another one, cut off at what is not compared. -/
abbrev Cut (m m' : Scan σ α) : Prop := CutOff Trap.outside m m'

structure CutSource (src src' : Source σ) : Prop where
  getc : Cut src.getc src'.getc
  ungetc : ∀ c, Cut (src.ungetc c) (src'.ungetc c)
  inType : ∀ c, Cut (src.inType c) (src'.inType c)
  digVal : ∀ c, Cut (src.digVal c) (src'.digVal c)
  room : src.room = src'.room

structure CutReader (R R' : Reader σ) : Prop where
  source : CutSource R.toSource R'.toSource
  atNul : R.atNul = R'.atNul
  readUtf8Character : ∀ q, Cut (R.readUtf8Character q) (R'.readUtf8Character q)
  com0plain : ∀ c, Cut (R.com0plain c) (R'.com0plain c)
  com2plain : ∀ c d, Cut (R.com2plain c d) (R'.com2plain c d)
  radixError : R.radixError = R'.radixError
  eoln : Cut R.eoln R'.eoln

namespace CutSource

variable {src src' : Source σ} (h : CutSource src src')
include h

theorem loop {body body' : α → Scan σ (α ⊕ β)} (hbody : ∀ a, Cut (body a) (body' a)) (a : α) :
    Cut (src.loop body a) (src'.loop body' a) := by
  unfold Source.loop
  rw [h.room]
  exact (CutOff.refl _).bind fun s => CutOff.rounds hbody _ _

theorem when (p : Prop) [Decidable p] (c : Int) : Cut (Picat.when p (src.ungetc c)) (Picat.when p (src'.ungetc c)) :=
  CutOff.ite (h.ungetc c) (CutOff.refl _)

theorem utf8Sequence (back2 : Int → Bool) (c : Int) : Cut (utf8Sequence src back2 c) (utf8Sequence src' back2 c) := by
  have hback : ∀ (p : Prop) [Decidable p] (b : Int) (m m' : Scan σ Int), Cut m m' →
      Cut (Picat.when p (src.ungetc b) >>= fun _ => m) (Picat.when p (src'.ungetc b) >>= fun _ => m') :=
    fun p _ b m m' hm => (h.when p b).bind fun _ => hm
  have hpure : Cut (pure c : Scan σ Int) (pure c) := CutOff.refl _
  unfold Picat.utf8Sequence
  refine CutOff.ite (h.getc.bind fun b2 => ?_) (CutOff.ite (h.getc.bind fun b2 => ?_)
    (CutOff.ite (h.getc.bind fun b2 => ?_) hpure))
  · exact CutOff.ite (CutOff.refl _) (hback _ _ _ _ hpure)
  · refine CutOff.ite (h.getc.bind fun b3 => CutOff.ite (CutOff.refl _) ?_) (hback _ _ _ _ hpure)
    exact hback _ _ _ _ ((h.ungetc b2).bind fun _ => hpure)
  · refine CutOff.ite (h.getc.bind fun b3 => CutOff.ite (h.getc.bind fun b4 => ?_) ?_) (hback _ _ _ _ hpure)
    · refine CutOff.ite (CutOff.refl _) (hback _ _ _ _ ?_)
      exact (h.ungetc b3).bind fun _ => (h.ungetc b2).bind fun _ => hpure
    · exact hback _ _ _ _ ((h.ungetc b2).bind fun _ => hpure)

theorem escapeDigits (eof base n : Int) : Cut (escapeDigits src eof base n) (escapeDigits src' eof base n) := by
  refine h.getc.bind fun c => h.loop (fun ⟨n, c⟩ => ?_) _
  refine CutOff.ite (CutOff.refl _) ((h.digVal c).bind fun v => ?_)
  exact CutOff.ite (h.getc.bind fun _ => CutOff.refl _) (CutOff.refl _)

theorem escapeNumber (base n : Int) : Cut (escapeNumber src base n) (escapeNumber src' base n) :=
  (h.escapeDigits (-1) base n).bind fun _ => CutOff.refl _

theorem unicodeDigits : ∀ (k : Nat) (n : Int), Cut (unicodeDigits src k n) (unicodeDigits src' k n) := by
  intro k
  induction k with
  | zero => exact fun n => CutOff.refl _
  | succ k ih =>
    intro n
    exact h.getc.bind fun c => (h.digVal c).bind fun v => CutOff.ite (ih _) (CutOff.refl _)

theorem escapeUnicode : Cut (escapeUnicode src) (escapeUnicode src') := by
  refine (h.unicodeDigits 4 0).bind fun ⟨n, good⟩ => ?_
  cases good with
  | false => exact CutOff.refl _
  | true =>
    refine h.getc.bind fun c => (h.digVal c).bind fun v => CutOff.ite ?_ ?_
    · exact (h.unicodeDigits 3 _).bind fun _ => CutOff.refl _
    · exact (h.when _ c).bind fun _ => CutOff.refl _

theorem readEscape : Cut (readEscape src) (readEscape src') := by
  refine h.getc.bind fun c => CutOff.ite (CutOff.refl _) (CutOff.ite (h.getc.bind fun _ => CutOff.refl _)
    (CutOff.ite (CutOff.refl _) ?_))
  cases escapeLetter c with
  | some d => exact CutOff.refl _
  | none =>
    refine CutOff.ite ((h.escapeNumber 16 0).map _) (CutOff.ite (h.escapeUnicode.map _) (CutOff.ite ?_ (CutOff.refl _)))
    exact (h.digVal c).bind fun n => (h.escapeNumber 8 n).map _

theorem readUtf8Character (q : Int) : Cut (readUtf8Character src q) (readUtf8Character src' q) := by
  refine h.loop (fun _ => h.getc.bind fun c => CutOff.ite (CutOff.refl _) (CutOff.ite (CutOff.refl _) (CutOff.ite ?_
    (CutOff.ite ?_ ?_)))) _
  · exact CutOff.map _ (h.getc.bind fun _ => CutOff.refl _)
  · exact CutOff.ite ((h.utf8Sequence _ c).map _) (CutOff.refl _)
  · exact h.readEscape.bind fun _ => CutOff.refl _

theorem com0plain (endeol : Int) : Cut (com0plain src endeol) (com0plain src' endeol) := by
  refine h.getc.bind fun c => (h.loop (fun c => ?_) c).bind fun c => CutOff.ite h.getc (CutOff.refl _)
  exact CutOff.ite (h.getc.map _) (CutOff.refl _)

theorem com2plain (astcom endcom : Int) : Cut (com2plain src astcom endcom) (com2plain src' astcom endcom) := by
  refine h.getc.bind fun c => (h.loop (fun ⟨c, state⟩ => ?_) (c, false)).bind fun c => CutOff.refl _
  exact CutOff.ite (CutOff.ite (CutOff.refl _) (h.getc.bind fun d => CutOff.refl _)) (CutOff.refl _)

end CutSource

namespace CutReader

variable {R R' : Reader σ} (h : CutReader R R') (fl : Flags)
include h

theorem nextDigit : Cut (nextDigit R) (nextDigit R') :=
  h.source.getc.bind fun c => h.source.loop (fun _ => CutOff.ite (h.source.getc.map _) (CutOff.refl _)) c

theorem scanBaseBigint (base : Int) (radInt : Term) (c : Int) :
    Cut (scanBaseBigint R base radInt c) (scanBaseBigint R' base radInt c) := by
  refine h.source.loop (fun ⟨radInt, c⟩ => (h.source.digVal c).bind fun v => ?_) _
  cases bigintStep radInt base v with
  | error e => exact CutOff.refl _
  | ok radInt => exact h.nextDigit.bind fun c => (h.source.digVal c).bind fun v => CutOff.refl _

theorem scanBase (base : Int) : Cut (scanBase R base) (scanBase R' base) := by
  refine h.source.getc.bind fun c => (h.source.digVal c).bind fun v => CutOff.ite (CutOff.refl _) ?_
  refine h.source.loop (fun ⟨oldv, c⟩ => (h.source.digVal c).bind fun v => CutOff.ite ?_ ?_) _
  · exact (h.scanBaseBigint base _ c).map _
  · exact h.nextDigit.bind fun c => (h.source.digVal c).bind fun v => CutOff.refl _

theorem endRadix (t : Token) (c : Int) : Cut (endRadix R t c) (endRadix R' t c) :=
  CutOff.ite (h.source.getc.bind fun _ => CutOff.refl _) (CutOff.refl _)

theorem scanRadixBigint (d : Int) (radInt : Term) (c : Int) :
    Cut (scanRadixBigint R d radInt c) (scanRadixBigint R' d radInt c) := by
  refine h.source.loop (fun ⟨radInt, c⟩ => (h.source.digVal c).bind fun v => CutOff.ite ?_ ((h.endRadix _ _).map _)) _
  refine CutOff.ite (CutOff.ite (CutOff.refl _) ?_) (h.source.getc.bind fun _ => CutOff.refl _)
  cases bigintStep radInt d v with
  | error e => exact CutOff.refl _
  | ok radInt => exact h.source.getc.bind fun _ => CutOff.refl _

theorem scanRadixDigits (d c : Int) : Cut (scanRadixDigits R d c) (scanRadixDigits R' d c) := by
  refine h.source.loop (fun ⟨oldv, c⟩ => (h.source.digVal c).bind fun v => CutOff.ite ?_ ((h.endRadix _ _).map _)) _
  refine CutOff.ite ?_ (h.source.getc.bind fun _ => CutOff.refl _)
  rw [h.radixError]
  refine CutOff.ite (CutOff.refl _) (CutOff.ite ?_ (h.source.getc.bind fun _ => CutOff.refl _))
  exact (h.scanRadixBigint d _ c).map _

section
variable (s : List UInt8)
include s

theorem scanRadix : Cut (scanRadix R s) (scanRadix R' s) := by
  apply (CutOff.refl _).bind
  intro _
  cases radixOf 0 s with
  | none => exact CutOff.refl _
  | some d =>
    refine CutOff.ite ?_ (h.source.getc.bind fun c => h.scanRadixDigits d c)
    exact (h.readUtf8Character _).bind fun d => h.source.getc.bind fun c => h.endRadix _ c

theorem scanFraction (d : Int) : Cut (scanFraction R s d) (scanFraction R' s d) :=
  h.source.loop (fun ⟨_, _⟩ => (CutOff.refl _).bind fun _ => h.source.getc.bind fun d =>
    (h.source.inType d).bind fun _ => CutOff.refl _) _

theorem scanExponent (d : Int) : Cut (scanExponent R s d) (scanExponent R' s d) :=
  (h.source.inType d).bind fun _ => CutOff.ite (CutOff.refl _) ((h.scanFraction s d).bind fun _ => CutOff.refl _)

theorem scanReal (d : Int) : Cut (scanReal R s d) (scanReal R' s d) := by
  refine (CutOff.refl _).bind fun s => (h.scanFraction s d).bind fun ⟨s, d⟩ => CutOff.ite ?_ (CutOff.refl _)
  refine (CutOff.refl _).bind fun s => h.source.getc.bind fun d => CutOff.ite ?_ (CutOff.ite ?_ (h.scanExponent s d))
  · exact (CutOff.refl _).bind fun s => h.source.getc.bind fun d => h.scanExponent s d
  · exact h.source.getc.bind fun d => h.scanExponent s d

theorem scanNumber (c : Int) : Cut (scanNumber R s c) (scanNumber R' s c) := by
  have hdigits : Cut (scanDigits R s c) (scanDigits R' s c) :=
    h.source.loop (fun ⟨_, c⟩ => (h.source.inType c).bind fun _ =>
      CutOff.ite ((CutOff.refl _).bind fun _ => h.source.getc.bind fun _ => CutOff.refl _) (CutOff.refl _)) _
  refine hdigits.bind fun ⟨s, c⟩ => CutOff.ite (h.scanRadix s) (CutOff.ite ?_ (CutOff.refl _))
  refine h.source.getc.bind fun d => (h.source.inType d).bind fun t => CutOff.ite (h.scanReal s d) ?_
  exact (h.source.ungetc d).bind fun _ => CutOff.refl _

end

theorem caseDigit (c : Int) : Cut (caseDigit R c) (caseDigit R' c) := by
  refine CutOff.ite (h.source.getc.bind fun d => ?_) (h.scanNumber [] c)
  cases baseOf d with
  | some base => exact h.scanBase base
  | none => exact (CutOff.refl _).bind fun s => h.scanNumber s d

theorem scanName (c : Int) : Cut (scanName R c) (scanName R' c) := by
  refine (h.source.loop (fun ⟨_, _, _⟩ => ?_) _).bind fun _ => CutOff.refl _
  exact (CutOff.refl _).bind fun _ => (CutOff.refl _).bind fun _ => h.source.getc.bind fun c =>
    (h.source.inType c).bind fun _ => CutOff.refl _

theorem astcom (d : Int) : Cut (astcom R d) (astcom R' d) :=
  (h.com2plain _ _).bind fun _ => CutOff.ite (h.source.getc.bind fun _ => CutOff.refl _) (CutOff.refl _)

theorem scanSigns (s : List UInt8) (n c d : Int) : Cut (scanSigns R s n c d) (scanSigns R' s n c d) := by
  refine (h.source.loop (fun ⟨_, _, d⟩ => (h.source.inType d).bind fun _ => CutOff.ite ?_ (CutOff.refl _)) _).bind
    fun ⟨_, d⟩ => (CutOff.refl _).bind fun _ => (h.source.inType d).bind fun _ => CutOff.refl _
  exact (CutOff.refl _).bind fun _ => (CutOff.refl _).bind fun _ => h.source.getc.bind fun _ => CutOff.refl _

theorem labSign (s : List UInt8) (c d : Int) : Cut (labSign R s c d) (labSign R' s c d) := by
  refine CutOff.ite (h.astcom d) (CutOff.ite (CutOff.ite ?_ (h.scanSigns _ _ _ _)) (CutOff.ite ?_ (h.scanSigns _ _ _ _)))
  · exact (CutOff.refl _).bind fun s => h.source.getc.bind fun d => CutOff.ite (CutOff.refl _) (h.scanSigns _ _ _ _)
  · exact (CutOff.refl _).bind fun _ => (CutOff.refl _).bind fun s => h.source.getc.bind fun d => h.scanSigns _ _ _ _

theorem endOrComment (c : Int) {rest rest' : Scan σ Pass} (hrest : Cut rest rest') :
    Cut (endOrComment R fl c rest) (endOrComment R' fl c rest') :=
  CutOff.ite (CutOff.refl _) (CutOff.ite ((h.com0plain _).map _) hrest)

theorem caseNoble (c : Int) : Cut (caseNoble R fl c) (caseNoble R' fl c) :=
  h.endOrComment fl c ((CutOff.refl _).bind fun s => h.source.getc.bind fun d =>
    CutOff.ite (h.labSign s c d) (CutOff.refl _))

theorem casePunct (c : Int) : Cut (casePunct R fl c) (casePunct R' fl c) :=
  h.endOrComment fl c (h.source.getc.bind fun d => CutOff.ite (h.astcom d) (CutOff.refl _))

theorem caseAtmqt (c : Int) : Cut (caseAtmqt R c) (caseAtmqt R' c) :=
  (h.source.loop (fun ⟨_, _⟩ => (h.readUtf8Character c).bind fun _ => CutOff.refl _) _).bind fun _ => CutOff.refl _

theorem caseLisqt (c : Int) : Cut (caseLisqt R fl c) (caseLisqt R' fl c) :=
  (h.source.loop (fun _ => (h.readUtf8Character c).bind fun _ => CutOff.refl _) _).bind fun _ => CutOff.refl _

theorem scanToken (c : Int) : Cut (scanToken R fl c) (scanToken R' fl c) := by
  unfold Picat.scanToken
  rw [h.atNul]
  refine CutOff.ite (CutOff.refl _) ((h.source.inType c).bind fun t => ?_)
  cases t with
  | digit => exact h.caseDigit c
  | brk => exact (h.scanName c).bind fun _ => CutOff.refl _
  | upper => exact (h.scanName c).bind fun _ => CutOff.refl _
  | lower => exact (h.scanName c).bind fun _ => CutOff.refl _
  | sign => exact (CutOff.refl _).bind fun s => h.source.getc.bind fun d => h.labSign s c d
  | noble => exact h.caseNoble fl c
  | punct => exact h.casePunct fl c
  | atmqt => exact h.caseAtmqt c
  | lisqt => exact h.caseLisqt fl c
  | eoln => exact h.eoln
  | space => exact h.source.getc.bind fun _ => CutOff.refl _
  | eofch => exact CutOff.refl _
  | dollar => exact CutOff.refl _
  | strqt => exact CutOff.refl _
  | chrqt => exact CutOff.refl _
  | tilde => exact CutOff.refl _
  | realo => exact CutOff.refl _
  | rreal => exact CutOff.refl _
  | rdigit => exact CutOff.refl _

theorem getTokenFrom : ∀ (fuel : Nat) (c : Int) (eolns : Nat) (s : ScanState σ),
    (getTokenFrom R fl fuel c eolns s).result = .error .outside ∨
      getTokenFrom R fl fuel c eolns s = getTokenFrom R' fl fuel c eolns s := by
  intro fuel
  induction fuel with
  | zero => exact fun _ _ _ => .inr rfl
  | succ fuel ih =>
    intro c eolns s
    unfold Picat.getTokenFrom
    rcases h.scanToken fl c s with hs | hs
    · exact .inl (by rw [hs])
    · rw [hs]
      cases hrun : Picat.scanToken R' fl c s with
      | error e => exact .inr rfl
      | ok r =>
        obtain ⟨p, t⟩ := r
        cases p with
        | start c => exact ih c eolns t
        | eoln c => exact ih c (eolns + 1) t
        | token t => exact .inr rfl
        | error => exact .inr rfl

theorem getToken (s : ScanState σ) :
    (getToken R fl s).result = .error .outside ∨ getToken R fl s = getToken R' fl s := by
  unfold Picat.getToken
  rw [h.source.room]
  exact h.getTokenFrom fl _ _ _ _

theorem reading : ∀ (k : Nat) (s : ScanState σ), (∀ o ∈ reading R fl k s, o.2 ≠ .trap .outside) →
    reading R fl k s = reading R' fl k s := by
  intro k
  induction k with
  | zero => exact fun _ _ => rfl
  | succ k ih =>
    intro s hout
    unfold Picat.reading at hout ⊢
    rcases h.getToken fl s with hs | hs
    · rw [Call.outcomes_trap hs] at hout
      exact absurd rfl (hout _ (List.mem_singleton.2 rfl))
    rw [hs] at hout ⊢
    cases hr : (Picat.getToken R' fl s).result with
    | error e => rw [Call.outcomes_trap hr, Call.outcomes_trap hr]
    | ok x =>
      obtain ⟨_ | t, s'⟩ := x
      · rw [Call.outcomes_error hr, Call.outcomes_error hr]
      · cases he : s'.bpException with
        | some e => rw [Call.outcomes_raised hr (he ▸ rfl), Call.outcomes_raised hr (he ▸ rfl)]
        | none =>
          rw [Call.outcomes_token hr he] at hout
          rw [Call.outcomes_token hr he, Call.outcomes_token hr he]
          split_ifs at hout ⊢ with heof
          · rfl
          · rw [ih s' fun o ho => hout o (List.mem_cons_of_mem _ ho)]

end CutReader

/-! ## The reader of files -/

theorem cut_cutAt (p : σ → Bool) (m : Scan σ α) : Cut (cutAt p m) m :=
  fun s => CutOff.cut (p s.source = true) m s

theorem cutSource_compared : CutSource comparedSource fileSource where
  getc := CutOff.refl _
  ungetc _ := CutOff.cut _ _
  inType _ := CutOff.cut _ _
  digVal _ := CutOff.cut _ _
  room := rfl

theorem cutSource_ascii : CutSource asciiSource fileSource :=
  { cutSource_compared with getc := cut_cutAt highNext fileGetc }

theorem cutReader_compared : CutReader comparedReader fileReader where
  source := cutSource_compared
  atNul := rfl
  readUtf8Character q :=
    (cut_cutAt (quotedOutside q) (readUtf8Character comparedSource q)).trans (cutSource_compared.readUtf8Character q)
  com0plain := cutSource_ascii.com0plain
  com2plain := cutSource_ascii.com2plain
  radixError := rfl
  eoln := CutOff.refl _

end Picat

/-! # The string in step with the stream -/

namespace Picat
open Simulation

/-! ## Runs of the operations -/

section
variable {s : ScanState (List UInt8)} {b : UInt8} {rest : List UInt8}

theorem fileGetc_nil (hs : s.source = []) : fileGetc s = .ok (-1, s) := by
  obtain ⟨source, lastc, e⟩ := s
  cases hs
  rfl

theorem fileGetc_cons (hs : s.source = b :: rest) : fileGetc s = .ok ((b.toNat : Int), { s with source := rest }) := by
  obtain ⟨source, lastc, e⟩ := s
  cases hs
  rfl

end

section
variable {s : ScanState StringIn} {b : UInt8} {rest : List UInt8}

theorem stringGetc_nil (hs : s.source.rest = []) (hpast : s.source.past = false) : stringGetc s = .ok (0, s) := by
  obtain ⟨⟨before, rest, past⟩, lastc, e⟩ := s
  cases hs
  cases hpast
  rfl

theorem stringGetc_cons (hs : s.source.rest = b :: rest) (hpast : s.source.past = false) :
    stringGetc s = .ok (toCHAR b.toNat, { s with source := ⟨b :: s.source.before, rest, false⟩ }) := by
  obtain ⟨⟨before, rest, past⟩, lastc, e⟩ := s
  cases hs
  cases hpast
  rfl

theorem stringNext_nil (hs : s.source.rest = []) (hpast : s.source.past = false) :
    stringNext s = .ok (0, { s with source := ⟨s.source.before, [], true⟩ }) := by
  obtain ⟨⟨before, rest, past⟩, lastc, e⟩ := s
  cases hs
  cases hpast
  rfl

theorem stringNext_cons (hs : s.source.rest = b :: rest) : stringNext s = stringGetc s := by
  obtain ⟨⟨before, rest, past⟩, lastc, e⟩ := s
  cases hs
  cases past <;> rfl

end

/-! ## The relations -/

def StringChar (c c' : Int) : Prop :=
  (1 ≤ c ∧ c ≤ 127 ∧ c' = c) ∨ (c = -1 ∧ c' = 0) ∨ (128 ≤ c ∧ c ≤ 255 ∧ c' = c - 256)

theorem StringChar.of_byte {b : UInt8} (hb : b ≠ 0) : StringChar b.toNat (toCHAR b.toNat) := by
  have hlt : b.toNat < 256 := b.toNat_lt
  have hpos : b.toNat ≠ 0 := fun h0 => hb (UInt8.toNat_inj.1 h0)
  unfold toCHAR
  rw [Int.bmod_def]
  rcases Nat.lt_or_ge b.toNat 128 with h | h
  · exact .inl ⟨by omega, by omega, by split_ifs <;> omega⟩
  · exact .inr (.inr ⟨by omega, by omega, by split_ifs <;> omega⟩)

theorem StringChar.lowByte {c c' : Int} (h : StringChar c c') (hc : c ≠ -1) : lowByte c' = lowByte c := by
  unfold Picat.lowByte
  rcases h with ⟨-, -, rfl⟩ | ⟨rfl, -⟩ | ⟨-, -, rfl⟩
  · rfl
  · exact absurd rfl hc
  · omega

theorem StringChar.eof_iff {c c' : Int} (h : StringChar c c') : c = -1 ↔ c' = 0 := by
  rcases h with ⟨h1, -, rfl⟩ | ⟨rfl, rfl⟩ | ⟨h128, h255, rfl⟩ <;> omega

def stringLink : Link (List UInt8) StringIn where
  source r r' := r'.rest = r ∧ r'.past = false ∧ (0 : UInt8) ∉ r
  char := StringChar
  aliveLeft _ := True
  aliveRight r' := r'.past = false
  back c _ _ s' := c ≠ -1 → ∃ b before, s'.source.before = b :: before ∧ (b.toNat : Int) = c
  eoln at' p' s' := p' = .token .endcl ∧ s'.lastc = ch ' ' ∧ s'.bpException = none ∧
    ∃ c' t', stringGetc s' = .ok (c', t') ∧ t'.lastc = ch ' ' ∧ at' c' t'
  eof t' := t' = .endcl

variable {e : Bool} {k : Nat} {c c' : Int} {s : ScanState (List UInt8)} {s' : ScanState StringIn}

theorem stringLink_getc (h : stringLink.Near List.length e k s s') :
    ∃ c t c' t', fileGetc s = .ok (c, t) ∧ stringGetc s' = .ok (c', t') ∧
      stringLink.Look List.length e k c c' t t' ∧ stringLink.back c c' t t' ∧
      t'.lastc = s'.lastc ∧
      ((c = -1 ∧ s.source = []) ∨ ∃ b, s.source = b :: t.source ∧ (b.toNat : Int) = c) := by
  obtain ⟨hrel, hroom⟩ := h
  obtain ⟨hrest, hpast, hnul⟩ := hrel.source
  cases hs : s.source with
  | nil =>
    rw [hs] at hrest
    refine ⟨-1, s, 0, s', fileGetc_nil hs, stringGetc_nil hrest hpast, ⟨.inr (.inl ⟨rfl, rfl⟩), hrel, ?_⟩,
      fun h => absurd rfl h, rfl, .inl ⟨rfl, rfl⟩⟩
    exact hroom
  | cons b rest =>
    rw [hs, List.length_cons] at hroom
    rw [hs] at hrest hnul
    rw [List.mem_cons, not_or] at hnul
    have hne : (b.toNat : Int) ≠ -1 := by omega
    have hchar := StringChar.of_byte (Ne.symm hnul.1)
    refine ⟨b.toNat, _, toCHAR b.toNat, _, fileGetc_cons hs, stringGetc_cons hrest hpast,
      ⟨hchar, ⟨⟨rfl, rfl, hnul.2⟩, hrel.lastc, hrel.left, hrel.right⟩, ?_⟩, fun _ => ⟨b, _, rfl, rfl⟩, rfl,
      .inr ⟨b, rfl, rfl⟩⟩
    rw [ahead_of_ne hne]
    exact hroom

theorem StringChar.eq_iff (h : StringChar c c') {n : Int} (h1 : 1 ≤ n) (h127 : n ≤ 127) : c = n ↔ c' = n := by
  rcases h with ⟨-, -, rfl⟩ | ⟨rfl, rfl⟩ | ⟨h128, h255, rfl⟩
  · exact Iff.rfl
  · omega
  · omega

theorem fileUngetc_run (s : ScanState (List UInt8)) {b : UInt8} (hb : b.toNat < 128) :
    fileUngetc b.toNat s = .ok (⟨⟩, { s with source := b :: s.source }) := by
  have hne : toCHAR b.toNat ≠ -1 := by
    unfold toCHAR
    rw [Int.bmod_def]
    split_ifs <;> omega
  unfold fileUngetc
  rw [if_neg hne, toBYTE_toNat]
  rfl

theorem stringUngetc_run {s : ScanState StringIn} {b : UInt8} {before : List UInt8} (c : Int)
    (hs : s.source.before = b :: before) (hpast : s.source.past = false) :
    stringUngetc c s = .ok (⟨⟩, { s with source := ⟨before, b :: s.source.rest, false⟩ }) := by
  obtain ⟨⟨before, rest, past⟩, lastc, e⟩ := s
  cases hs
  cases hpast
  rfl

theorem ungetc_sim (e : Bool) (k : Nat) (c c' : Int) :
    InRun (fun s s' => stringLink.Look List.length e k c c' s s' ∧ stringLink.back c c' s s')
      (comparedSource.ungetc c) (stringSource.ungetc c') fun _ _ => stringLink.Near List.length e k := by
  apply Sim.cut (p := c = -1 ∨ c ≥ 128) excused_outside
  intro hout
  rintro s s' ⟨⟨hc, hrel, hroom⟩, hback⟩
  rw [not_or] at hout
  obtain ⟨hrest, hpast, hnul⟩ := hrel.source
  obtain ⟨b, before, hbefore, hb⟩ := hback hout.1
  subst hb
  rw [fileUngetc_run s (by omega)]
  have hne : b ≠ 0 := by
    rintro rfl
    rcases hc with ⟨h1, -⟩ | ⟨h1, -⟩ | ⟨h1, -⟩ <;> exact absurd h1 (by decide)
  refine ⟨_, _, stringUngetc_run c' hbefore hpast, ⟨⟨?_, rfl, ?_⟩, hrel.lastc, hrel.left, hrel.right⟩, ?_⟩
  · rw [hrest]
  · rw [List.mem_cons, not_or]
    exact ⟨Ne.symm hne, hnul⟩
  · rw [ahead_of_ne hout.1] at hroom
    exact hroom

section
variable (P : ScanState (List UInt8) → ScanState StringIn → Prop) (hc : StringChar c c')
include P hc

theorem inType_sim :
    InRun P (comparedSource.inType c) (stringSource.inType c') fun t t' s s' => P s s' ∧ SameType c c' t t' := by
  apply Sim.cut (p := c ≥ 128) excused_outside
  intro hlow
  rcases hc with ⟨h1, h127, rfl⟩ | ⟨rfl, rfl⟩ | ⟨h128, -, -⟩
  · obtain ⟨t, ht⟩ := exists_inTypeOf (show (-1 : Int) ≤ c' by omega) (by omega)
    have hne : t ≠ .eofch := fun h => inTypeOf_ne_eofch h1 h127 (h ▸ ht)
    show InRun P (lookup (inTypeOf c')) (lookup (inTypeOf c')) _
    rw [ht]
    exact Sim.pure fun _ _ hP => ⟨hP, .inr ⟨h1, h127, rfl, rfl⟩, fun h => absurd h hne⟩
  · exact Sim.pure fun _ _ hP => ⟨hP, .inl ⟨rfl, rfl, .inr rfl⟩, fun _ => rfl⟩
  · exact absurd h128 hlow

theorem digVal_sim :
    InRun P (comparedSource.digVal c) (stringSource.digVal c') fun v v' s s' => P s s' ∧ SameVal c c' v v' := by
  apply Sim.cut (p := c ≥ 128) excused_outside
  intro hlow
  rcases hc with ⟨h1, h127, rfl⟩ | ⟨rfl, rfl⟩ | ⟨h128, -, -⟩
  · obtain ⟨v, hv⟩ := exists_digValOf (show (-1 : Int) ≤ c' by omega) (by omega)
    show InRun P (lookup (digValOf c')) (lookup (digValOf c')) _
    rw [hv]
    exact Sim.pure fun _ _ hP => ⟨hP, .inr ⟨h1, h127, rfl, rfl⟩⟩
  · exact Sim.pure fun _ _ hP => ⟨hP, .inl ⟨rfl, rfl, rfl⟩⟩
  · exact absurd h128 hlow

end

theorem sourceStep_string : SourceStep stringLink comparedSource stringSource where
  char h _ h1 h127 := StringChar.eq_iff h h1 h127
  ascii h1 h127 := .inl ⟨h1, h127, rfl⟩
  room h := by rw [← h.1]; rfl
  getc e k s s' hP := by
    obtain ⟨c, t, c', t', hrun, hrun', hL, hback, -⟩ := stringLink_getc hP
    rw [show comparedSource.getc s = .ok (c, t) from hrun]
    exact ⟨c', t', hrun', hL, hback⟩
  getcLeft s hs _ := by
    cases hsrc : s.source with
    | nil => exact ⟨_, _, fileGetc_nil hsrc, trivial, hs, trivial⟩
    | cons b rest => exact ⟨_, _, fileGetc_cons hsrc, trivial, hs, trivial⟩
  getcRight s hs hpast := by
    cases hsrc : s.source.rest with
    | nil => exact ⟨_, _, stringGetc_nil hsrc hpast, trivial, hs, hpast⟩
    | cons b rest => exact ⟨_, _, stringGetc_cons hsrc hpast, trivial, hs, rfl⟩
  ungetc := ungetc_sim
  inType P _ _ hc := inType_sim P hc
  digVal P _ _ hc := digVal_sim P hc

end Picat
