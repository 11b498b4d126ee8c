import Picat.Arith.Bitwise
import Picat.Token.Quoted

/-!
# The tokenizers

`GetToken` and `GetTokenString` are one state machine written twice, over the readers of a file and over those of a
string. A `Reader` has what one copy calls, and the few branches in which the copies differ.

* `fileReader`, `stringReader` : the two copies.
-/

namespace Picat

/-- `eolcom_flag` and `double_quotes_flag`. -/
structure Flags where
  eolcomFlag : Int
  doubleQuotesFlag : Int

/-- An element of a quoted list: a code, or an atom of one character. -/
inductive QuotedItem
  | code (d : Int)
  | atom (name : List UInt8)
deriving DecidableEq

/-- A token with the text in `AtomStr` or the value that comes with it. -/
inductive Token
  | digit (atomStr : List UInt8)
  | real (atomStr : List UInt8)
  | upper (name : List UInt8)
  | lower (name : List UInt8)
  | punct (name : List UInt8)
  | lisqt (list : List QuotedItem)
  | rdigit (radInt : Int)
  | bigint (radInt : Term)
  | endcl
  | eofch
deriving DecidableEq

inductive Pass
  /-- At `START`, with the next character. -/
  | start (c : Int)
  /-- At `START`, after a line end between tokens. -/
  | eoln (c : Int)
  | token (t : Token)
  /-- `return BP_ERROR`. -/
  | error
deriving DecidableEq

structure Reader (σ : Type) extends Source σ where
  /-- `c == '\0'` at `START`. -/
  atNul : Int → Bool
  readUtf8Character : Int → Scan σ Int
  com0plain : Int → Scan σ Int
  com2plain : Int → Int → Scan σ Bool
  /-- The error for a digit that is too large for its radix. -/
  radixError : TokenError
  /-- The case `EOLN`. -/
  eoln : Scan σ Pass

variable {σ : Type} (R : Reader σ) (fl : Flags)

/-- A token before the character `c`. -/
def endToken (c : Int) (t : Token) : Scan σ Pass := do
  setLastc c
  pure (.token t)

def endOfClause : Scan σ Pass := endToken (ch ' ') .endcl

def fail (e : TokenError) : Scan σ Pass := do
  setException e
  pure .error

def symbol (s : List UInt8) (c : Int) : Scan σ Pass := endToken c (.lower s)

/-! ## Numbers -/

/-- The base that the character after a leading zero stands for. -/
def baseOf (d : Int) : Option Int :=
  if d = ch 'b' ∨ d = ch 'B' then some 2
  else if d = ch 'o' ∨ d = ch 'O' then some 8
  else if d = ch 'x' ∨ d = ch 'X' then some 16
  else none

/-- `rad_int * base + v` on bigints. -/
def bigintStep (radInt : Term) (base v : Int) : Except ArithError Term := do
  let t ← bpMulBigintBigint radInt.toBigint (bpIntToBigint base)
  pure (bpAddBigintBigint t.toBigint (bpIntToBigint v))

def wordFull (oldv newv : Int) : Prop := newv < oldv ∨ newv > bpMaxint1W

instance (oldv newv : Int) : Decidable (wordFull oldv newv) := by unfold wordFull; infer_instance

def nextDigit : Scan σ Int := do
  let c ← R.getc
  R.loop (fun c => do if c = ch '_' then .inl <$> R.getc else pure (.inr c)) c

/-- The digits of a bigint in a base written with a letter, from the digit `c` on. -/
def scanBaseBigint (base : Int) (radInt : Term) (c : Int) : Scan σ Pass :=
  R.loop (fun (radInt, c) => do
    let v ← R.digVal c
    match bigintStep radInt base v with
    | .error e => .inr <$> fail (.arith e)
    | .ok radInt =>
      let c ← nextDigit R
      let v ← R.digVal c
      if v ≥ 0 ∧ v < base then pure (.inl (radInt, c))
      else if v < 99 then .inr <$> fail .integer
      else
        .inr <$> endToken c (.bigint radInt)) (radInt, c)

/-- The digits of a number in a base written with a letter, from the digit `c` on. -/
def scanBaseDigits (base c : Int) : Scan σ Pass :=
  R.loop (fun (oldv, c) => do
    let v ← R.digVal c
    let newv := bplong (oldv * base + v)
    if wordFull oldv newv then .inr <$> scanBaseBigint R base (.bigint (bpIntToBigint oldv)) c
    else
      let c ← nextDigit R
      let v ← R.digVal c
      if v ≥ 0 ∧ v < base then pure (.inl (newv, c))
      else if v < 99 then .inr <$> fail .integer
      else
        .inr <$> endToken c (.rdigit newv)) (0, c)

/-- `0b`, `0o` and `0x` numbers after the letter. -/
def scanBase (base : Int) : Scan σ Pass := do
  let c ← R.getc
  let v ← R.digVal c
  if v < 0 ∨ v ≥ base ∨ c = ch '_' then fail .integer else scanBaseDigits R base c

/-- The radix as it stands in `AtomStr`; `none` when it is above 36. -/
def radixOf : Int → List UInt8 → Option Int
  | d, [] => some d
  | d, b :: s =>
    if toCHAR b.toNat = 0 then some d
    else
      let d := d * 10 - 48 + toCHAR b.toNat
      if d > 36 then none else radixOf d s

/-- The end of a number with a radix, whose separator can follow it. -/
def endRadix (t : Token) (c : Int) : Scan σ Pass := do
  if c = intab.radix then
    let c ← R.getc
    endToken c t
  else endToken c t

def scanRadixBigint (d : Int) (radInt : Term) (c : Int) : Scan σ Pass :=
  R.loop (fun (radInt, c) => do
    let v ← R.digVal c
    if v < 99 then
      if c ≠ ch '_' then
        if v ≥ d then .inr <$> fail .intOverflow
        else match bigintStep radInt d v with
          | .error e => .inr <$> fail (.arith e)
          | .ok radInt =>
            let c ← R.getc
            pure (.inl (radInt, c))
      else
        let c ← R.getc
        pure (.inl (radInt, c))
    else .inr <$> endRadix R (.bigint radInt) c) (radInt, c)

def scanRadixDigits (d c : Int) : Scan σ Pass :=
  R.loop (fun (oldv, c) => do
    let v ← R.digVal c
    if v < 99 then
      if c ≠ ch '_' then
        if v ≥ d then .inr <$> fail R.radixError
        else
          let newv := bplong (oldv * d + v)
          if wordFull oldv newv then .inr <$> scanRadixBigint R d (.bigint (bpIntToBigint oldv)) c
          else
            let c ← R.getc
            pure (.inl (newv, c))
      else
        let c ← R.getc
        pure (.inl (oldv, c))
    else .inr <$> endRadix R (.rdigit oldv) c) (0, c)

def scanCharCode : Scan σ Pass := do
  let d ← R.readUtf8Character singleQuote
  let c ← R.getc
  endRadix R (.rdigit d) c

def scanRadix (s : List UInt8) : Scan σ Pass := do
  putEnd s
  match radixOf 0 s with
  | none => fail .intOverflow
  | some d =>
    if d = 0 then scanCharCode R
    else
      let c ← R.getc
      scanRadixDigits R d c

def putDigit (s : List UInt8) (d : Int) : Scan σ (List UInt8) := if d ≠ ch '_' then putChar s d else pure s

/-- The digits of a fraction or of an exponent, from `d` on. -/
def scanFraction (s : List UInt8) (d : Int) : Scan σ (List UInt8 × Int) :=
  R.loop (fun (s, d) => do
    let s ← putDigit s d
    let d ← R.getc
    let t ← R.inType d
    if t.code ≤ CharType.brk.code then pure (.inl (s, d)) else pure (.inr (s, d))) (s, d)

def endReal (s : List UInt8) (d : Int) : Scan σ Pass := do
  putEnd s
  endToken d (.real s)

def scanExponent (s : List UInt8) (d : Int) : Scan σ Pass := do
  let t ← R.inType d
  if t.code > CharType.brk.code then fail .badexpt
  else
    let (s, d) ← scanFraction R s d
    endReal s d

/-- A real from the first digit after the point on; `(d | 32) == 'e'` holds of the two letters. -/
def scanReal (s : List UInt8) (d : Int) : Scan σ Pass := do
  let s ← putChar s (ch '.')
  let (s, d) ← scanFraction R s d
  if d = ch 'e' ∨ d = ch 'E' then
    let s ← putChar s (ch 'E')
    let d ← R.getc
    if d = ch '-' then
      let s ← putChar s d
      let d ← R.getc
      scanExponent R s d
    else if d = ch '+' then
      let d ← R.getc
      scanExponent R s d
    else scanExponent R s d
  else endReal s d

def endDigits (s : List UInt8) (c : Int) : Scan σ Pass := do
  putEnd s
  endToken c (.digit s)

def scanDigits (s : List UInt8) (c : Int) : Scan σ (List UInt8 × Int) :=
  R.loop (fun (s, c) => do
    let t ← R.inType c
    if t = .digit ∨ c = ch '_' then
      let s ← putDigit s c
      let c ← R.getc
      pure (.inl (s, c))
    else pure (.inr (s, c))) (s, c)

def scanNumber (s : List UInt8) (c : Int) : Scan σ Pass := do
  let (s, c) ← scanDigits R s c
  if c = intab.radix then scanRadix R s
  else if c = intab.dpoint then
    let d ← R.getc
    let t ← R.inType d
    if t = .digit then scanReal R s d
    else
      R.ungetc d
      endDigits s c
  else endDigits s c

def caseDigit (c : Int) : Scan σ Pass := do
  if c = ch '0' then
    let d ← R.getc
    match baseOf d with
    | some base => scanBase R base
    | none =>
      let s ← putChar [] c
      scanNumber R s d
  else scanNumber R [] c

def scanName (c : Int) : Scan σ (List UInt8 × Int) := do
  let (s, c) ← R.loop (fun (s, n, c) => do
    when (n - 1 < 0) (setException .tok2long)
    let s ← putChar s c
    let c ← R.getc
    let t ← R.inType c
    if t.code ≤ CharType.lower.code then pure (.inl (s, n - 1, c)) else pure (.inr (s, c)))
    (([] : List UInt8), (maxStrLen : Int), c)
  putEnd s
  pure (s, c)

/-- The cases `BREAK` and `UPPER`. -/
def caseUpper (c : Int) : Scan σ Pass := do
  let (s, c) ← scanName R c
  endToken c (.upper s)

def caseLower (c : Int) : Scan σ Pass := do
  let (s, c) ← scanName R c
  symbol s c

/-! ## Signs and punctuation -/

def astcom (d : Int) : Scan σ Pass := do
  if ← R.com2plain d intab.endcom then
    let c ← R.getc
    pure (.start c)
  else pure .error

/-- The loop over the signs from `d` on, in a symbol that begins with `c`. -/
def scanSigns (s : List UInt8) (n c d : Int) : Scan σ Pass := do
  let (s, d) ← R.loop (fun (s, n, d) => do
    let t ← R.inType d
    if t = .sign then
      when (n - 1 = 0) (setException .tok2long)
      let s ← putChar s d
      let d ← R.getc
      pure (.inl (s, n - 1, d))
    else pure (.inr (s, d))) (s, n, d)
  putEnd s
  let t ← R.inType d
  if t.code ≥ CharType.space.code ∧ c = intab.termin ∧ s.getD 1 0 = 0 then
    endToken d .endcl
  else symbol s d

/-- The labels `lab_sign_stream` and `lab_sign_string`. -/
def labSign (s : List UInt8) (c d : Int) : Scan σ Pass := do
  if c = intab.begcom ∧ d = intab.astcom then astcom R d
  else if c = ch '.' then
    if d = ch '.' then
      let s ← putChar s d
      let d ← R.getc
      if d = ch '+' ∨ d = ch '-' then
        putEnd s
        endToken d (.lower s)
      else scanSigns R s maxStrLen c d
    else scanSigns R s maxStrLen c d
  else if c = ch '#' ∧ d = ch '!' then
    when ((maxStrLen : Int) - 1 = 0) (setException .tok2long)
    let s ← putChar s d
    let d ← R.getc
    scanSigns R s (maxStrLen - 1) c d
  else scanSigns R s maxStrLen c d

def caseSign (c : Int) : Scan σ Pass := do
  let s ← putChar [] c
  let d ← R.getc
  labSign R s c d

/-- What the cases `NOBLE` and `PUNCT` begin with: the end of a clause, and line comments. -/
def endOrComment (c : Int) (rest : Scan σ Pass) : Scan σ Pass := do
  if c = intab.termin then
    putEnd []
    endOfClause
  else if fl.eolcomFlag = 1 ∧ c = intab.eolcom then .start <$> R.com0plain intab.endeol
  else rest

def caseNoble (c : Int) : Scan σ Pass :=
  endOrComment R fl c do
    let s ← putChar [] c
    let d ← R.getc
    if d = ch '=' then labSign R s c d
    else
      putEnd s
      symbol s d

def casePunct (c : Int) : Scan σ Pass :=
  endOrComment R fl c do
    let d ← R.getc
    if c = intab.begcom ∧ d = intab.astcom then astcom R d
    else if c = ch '|' ∧ d = ch '|' then
      let s ← putText [] [ch '|', ch '|']
      putEnd s
      endToken (ch ' ') (.lower s)
    else
      let s ← putChar [] c
      putEnd s
      endToken d (.punct s)

def caseAtmqt (c : Int) : Scan σ Pass := do
  let s ← R.loop (fun (s, n) => do
    let d ← R.readUtf8Character c
    let e ← getException
    if d ≥ 0 ∧ e = none then .inl <$> putCodepoint d (s, n) else pure (.inr s)) (([] : List UInt8), (maxStrLen : Int))
  putEnd s
  let c ← getLastc
  symbol s c

def quotedItem (d : Int) : Scan σ QuotedItem := do
  if fl.doubleQuotesFlag = 0 then pure (.code d)
  else
    let (s, _) ← putCodepoint d ([], maxStrLen)
    putEnd s
    pure (.atom s)

def caseLisqt (c : Int) : Scan σ Pass := do
  let l ← R.loop (fun l => do
    let d ← R.readUtf8Character c
    let e ← getException
    if d ≥ 0 ∧ e = none then
      let a ← quotedItem fl d
      pure (.inl (l ++ [a]))
    else pure (.inr l)) []
  pure (.token (.lisqt l))

/-! ## Passes and calls -/

def caseSpace : Scan σ Pass := do
  let c ← R.getc
  setLastc (ch ' ')
  pure (.start c)

def caseEofch : Scan σ Pass := endToken (ch ' ') .eofch

def caseDollar (c : Int) : Scan σ Pass := do
  let s ← putChar [] c
  putEnd s
  endToken (ch ' ') (.punct s)

/-- The tokenizer from `START`, with the character `c`, to the next `START` or to its end. -/
def scanToken (c : Int) : Scan σ Pass := do
  if R.atNul c then endOfClause
  else match ← R.inType c with
    | .digit => caseDigit R c
    | .brk | .upper => caseUpper R c
    | .lower => caseLower R c
    | .sign => caseSign R c
    | .noble => caseNoble R fl c
    | .punct => casePunct R fl c
    | .atmqt => caseAtmqt R c
    | .lisqt => caseLisqt R fl c
    | .eoln => R.eoln
    | .space => caseSpace R
    | .eofch => caseEofch
    | .dollar => caseDollar c
    | .strqt | .chrqt | .tilde | .realo | .rreal | .rdigit => fail .inCharacter

/-- What a call gives: the number of line ends that it has passed, and a token or `BP_ERROR`. -/
structure Call (σ : Type) where
  eolns : Nat
  result : Except Trap (Option Token × ScanState σ)

/-- At most `fuel` passes from `START` with the character `c`. -/
def getTokenFrom : Nat → Int → Nat → ScanState σ → Call σ
  | 0, _, eolns, _ => ⟨eolns, .error .rounds⟩
  | fuel + 1, c, eolns, s =>
    match scanToken R fl c s with
    | .error e => ⟨eolns, .error e⟩
    | .ok (.start c, s) => getTokenFrom fuel c eolns s
    | .ok (.eoln c, s) => getTokenFrom fuel c (eolns + 1) s
    | .ok (.token t, s) => ⟨eolns, .ok (some t, s)⟩
    | .ok (.error, s) => ⟨eolns, .ok (none, s)⟩

/-- `GetToken` and `GetTokenString`, as `b_NEXT_TOKEN_ff` calls them. -/
def getToken (s : ScanState σ) : Call σ :=
  getTokenFrom R fl (R.room s.source + 3) s.lastc 0 { s with bpException := none }

/-- `GetToken`. -/
def fileReader : Reader (List UInt8) where
  toSource := fileSource
  atNul _ := false
  readUtf8Character := readUtf8Character fileSource
  com0plain := com0plain fileSource
  com2plain := com2plain fileSource
  radixError := .intOverflow
  eoln := do
    let c ← fileSource.getc
    setLastc (ch ' ')
    pure (.eoln c)

/-- `GetTokenString`. -/
def stringReader : Reader StringIn where
  toSource := stringSource
  atNul c := c = 0
  readUtf8Character := readUtf8CharacterString stringSource
  com0plain := com0plainString
  com2plain := com2plainString stringSource
  radixError := .integer
  eoln := endOfClause

end Picat

/-! # Sequences of tokens -/

namespace Picat

/-- What a call gives to `b_NEXT_TOKEN_ff`. -/
inductive Outcome
  | token (t : Token)
  | error
  | trap (e : Trap)
deriving DecidableEq

variable {σ : Type} (R : Reader σ) (fl : Flags)

/-- What a call gives, with the number of line ends that it has passed, and after a token what `rest` gives. -/
def Call.outcomes (rest : ScanState σ → List (Nat × Outcome)) (r : Call σ) : List (Nat × Outcome) :=
  match r.result with
  | .error e => [(r.eolns, .trap e)]
  | .ok (none, _) => [(r.eolns, .error)]
  | .ok (some t, s) =>
    if s.bpException = none then (r.eolns, .token t) :: (if t = .eofch then [] else rest s)
    else [(r.eolns, .error)]

section
variable {r : Call σ} {rest rest' : ScanState σ → List (Nat × Outcome)} {t : Token} {s : ScanState σ}

theorem Call.outcomes_trap {e : Trap} (h : r.result = .error e) : r.outcomes rest = [(r.eolns, .trap e)] := by
  unfold Call.outcomes
  rw [h]

theorem Call.outcomes_error (h : r.result = .ok (none, s)) : r.outcomes rest = [(r.eolns, .error)] := by
  unfold Call.outcomes
  rw [h]

theorem Call.outcomes_raised (h : r.result = .ok (some t, s)) (he : s.bpException.isSome) :
    r.outcomes rest = [(r.eolns, .error)] := by
  unfold Call.outcomes
  rw [h]
  exact if_neg (Option.isSome_iff_ne_none.1 he)

theorem Call.outcomes_token (h : r.result = .ok (some t, s)) (he : s.bpException = none) :
    r.outcomes rest = (r.eolns, .token t) :: (if t = .eofch then [] else rest s) := by
  unfold Call.outcomes
  rw [h]
  exact if_pos he

end

/-- At most `k` calls. -/
def reading : Nat → ScanState σ → List (Nat × Outcome)
  | 0, _ => []
  | k + 1, s => (getToken R fl s).outcomes (reading k)

def fileStart (text : List UInt8) : ScanState (List UInt8) := ⟨text, ch ' ', none⟩

def stringStart (text : List UInt8) : ScanState StringIn := ⟨⟨[], text, false⟩, ch ' ', none⟩

/-- The calls of `GetToken` on a text. -/
def fileReading (k : Nat) (text : List UInt8) : List (Nat × Outcome) := reading fileReader fl k (fileStart text)

/-- The tokens that `GetTokenString` gives for a text. -/
def stringReading (k : Nat) (text : List UInt8) : List Outcome :=
  (reading stringReader fl k (stringStart text)).map Prod.snd

end Picat

namespace Picat
open Simulation

/-! ## Sources with known characters -/

variable {σ : Type}

/-- A source in which the characters to come are known. -/
structure Feed (src : Source σ) (eof : Int) where
  /-- These characters are to come. -/
  At : σ → List Int → Prop
  /-- A character has been read. -/
  Back : σ → Prop
  getc : ∀ {s : ScanState σ} {cs : List Int}, At s.source cs → ∃ r, At r cs.tail ∧ (cs ≠ [] ∨ Back s.source → Back r) ∧
    src.getc s = .ok (cs.headD eof, { s with source := r })
  ungetc : ∀ {s : ScanState σ} (c : Int), Back s.source → ∃ r, src.ungetc c s = .ok ((), { s with source := r })
  inType : ∀ c, src.inType c = lookup (inTypeOf c)
  digVal : ∀ c, src.digVal c = lookup (digValOf c)
  room : ∀ {r : σ} {cs : List Int}, At r cs → src.room r = cs.length
  eof_cases : eof = -1 ∨ eof = 0

def fileChars (text : List UInt8) : List Int := text.map fun b => (b.toNat : Int)

def stringChars (text : List UInt8) : List Int := text.map fun b => toCHAR b.toNat

def fileFeed : Feed fileSource (-1) where
  At r cs := fileChars r = cs
  Back _ := True
  getc := by
    rintro ⟨r, lastc, e⟩ cs rfl
    cases r with
    | nil => exact ⟨[], rfl, fun _ => trivial, rfl⟩
    | cons b r => exact ⟨r, rfl, fun _ => trivial, rfl⟩
  ungetc := by
    intro s c _
    by_cases h : toCHAR c = -1
    · exact ⟨s.source, by show (if _ then _ else _ : Scan _ Unit) s = _; rw [if_pos h]; rfl⟩
    · exact ⟨_, by show (if _ then _ else _ : Scan _ Unit) s = _; rw [if_neg h]; rfl⟩
  inType _ := rfl
  digVal _ := rfl
  room := by
    rintro r cs rfl
    exact (List.length_map ..).symm
  eof_cases := .inl rfl

def stringFeed : Feed stringSource 0 where
  At r cs := r.past = false ∧ stringChars r.rest = cs
  Back r := r.before ≠ []
  getc := by
    rintro ⟨⟨before, rest, past⟩, lastc, e⟩ cs ⟨rfl, rfl⟩
    cases rest with
    | nil => exact ⟨⟨before, [], false⟩, ⟨rfl, rfl⟩, fun h => h.resolve_left fun h => h rfl, rfl⟩
    | cons b rest =>
      have hget : stringSource.getc ⟨⟨before, b :: rest, false⟩, lastc, e⟩ =
        .ok (toCHAR b.toNat, ⟨⟨b :: before, rest, false⟩, lastc, e⟩) := rfl
      exact ⟨⟨b :: before, rest, false⟩, ⟨rfl, rfl⟩, fun _ => List.cons_ne_nil b before, by
        rw [stringChars, List.map_cons, List.headD_cons]
        exact hget⟩
  ungetc := by
    rintro ⟨⟨before, rest, past⟩, lastc, e⟩ c h
    cases before with
    | nil => exact absurd rfl h
    | cons b before => cases past <;> exact ⟨_, rfl⟩
  inType _ := rfl
  digVal _ := rfl
  room := by
    rintro r cs ⟨-, rfl⟩
    exact (List.length_map ..).symm
  eof_cases := .inr rfl

namespace Feed

variable {src : Source σ} {eof : Int} (F : Feed src eof) {s : ScanState σ} {cs : List Int} {c : Int}

/-- The loop looks at the first character of `cs`. -/
def Cur (cs : List Int) (c : Int) (s : ScanState σ) : Prop := c = cs.headD eof ∧ F.At s.source cs.tail

/-- The characters `cs` stand before a call: the first of them has been read, or a space. -/
def Ready (cs : List Int) (s : ScanState σ) : Prop := F.Cur cs s.lastc s ∨ s.lastc = ch ' ' ∧ F.At s.source cs

theorem getc_cur (h : F.At s.source cs) :
    ∃ r, F.Cur cs (cs.headD eof) { s with source := r } ∧ (cs ≠ [] ∨ F.Back s.source → F.Back r) ∧
      src.getc s = .ok (cs.headD eof, { s with source := r }) := by
  obtain ⟨r, hr, hback, hget⟩ := F.getc h
  exact ⟨r, ⟨rfl, hr⟩, hback, hget⟩

end Feed

end Picat
