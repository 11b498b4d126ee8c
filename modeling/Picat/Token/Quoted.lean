import Picat.Arith.AddMul
import Picat.Lib.Simulation

/-!
# Characters of the tokenizers

A character is the `int` that a reader gives: a byte of a file, or a `char` of a string, which is negative from 128 on.

* `putChar`, `putEnd` : writes to `AtomStr`.
-/

namespace Picat

/-! ## The tables -/

/-- The types of characters, in the order of their numbers; `brk` is `BREAK`. -/
inductive CharType
  | digit | brk | upper | lower | sign | noble | punct | atmqt | lisqt | strqt | chrqt | tilde | space | eoln | realo
  | eofch | rreal | rdigit | dollar
deriving DecidableEq, Repr

def CharType.code : CharType → Nat
  | .digit => 0
  | .brk => 1
  | .upper => 2
  | .lower => 3
  | .sign => 4
  | .noble => 5
  | .punct => 6
  | .atmqt => 7
  | .lisqt => 8
  | .strqt => 9
  | .chrqt => 10
  | .tilde => 11
  | .space => 12
  | .eoln => 13
  | .realo => 14
  | .eofch => 15
  | .rreal => 16
  | .rdigit => 17
  | .dollar => 18

section
open CharType

/-- `intab.chtype`. -/
def chtype : List CharType :=
  [ eofch, space, space, space, space, space, space, space, space, space, space, eoln, space, eoln, space, space, space,
    space, space, space, space, space, space, space, space, space, space, space, space, space, space, space, space,
    space, noble, lisqt, sign, dollar, punct, sign, atmqt, punct, punct, sign, sign, punct, sign, sign, sign,
    digit, digit, digit, digit, digit, digit, digit, digit, digit, digit, sign, punct, sign, sign, sign, sign,
    sign, upper, upper, upper, upper, upper, upper, upper, upper, upper, upper, upper, upper, upper, upper, upper,
    upper, upper, upper, upper, upper, upper, upper, upper, upper, upper, upper, punct, sign, punct, sign, brk,
    sign, lower, lower, lower, lower, lower, lower, lower, lower, lower, lower, lower, lower, lower, lower, lower,
    lower, lower, lower, lower, lower, lower, lower, lower, lower, lower, lower, punct, punct, punct, sign, space,
    space, space, space, space, space, space, space, space, space, space, space, space, space, space, space, space,
    space, space, space, space, space, space, space, space, space, space, space, space, space, space, space, space,
    space, sign, sign, sign, sign, sign, sign, sign, sign, sign, lower, sign, sign, sign, sign, sign,
    sign, sign, lower, lower, sign, sign, sign, sign, sign, lower, lower, sign, sign, sign, sign, sign,
    upper, upper, upper, upper, upper, upper, upper, upper, upper, upper, upper, upper, upper, upper, upper, upper,
    upper, upper, upper, upper, upper, upper, upper, sign, upper, upper, upper, upper, upper, upper, upper, lower,
    lower, lower, lower, lower, lower, lower, lower, lower, lower, lower, lower, lower, lower, lower, lower, lower,
    lower, lower, lower, lower, lower, lower, lower, sign, lower, lower, lower, lower, lower, lower, lower, lower ]

end

def digval : List Int :=
  [ 99, 99, 99, 99, 99, 99, 99, 99, 99, 99, 99, 99, 99, 99, 99, 99, 99,
    99, 99, 99, 99, 99, 99, 99, 99, 99, 99, 99, 99, 99, 99, 99, 99,
    99, 99, 99, 99, 99, 99, 99, 99, 99, 99, 99, 99, 99, 99, 99, 99,
    0, 1, 2, 3, 4, 5, 6, 7, 8, 9, 99, 99, 99, 99, 99, 99,
    99, 10, 11, 12, 13, 14, 15, 99, 99, 99, 99, 99, 99, 99, 99, 99,
    99, 99, 99, 99, 99, 99, 99, 99, 99, 99, 99, 99, 99, 99, 99, 0,
    99, 10, 11, 12, 13, 14, 15, 99, 99, 99, 99, 99, 99, 99, 99, 99,
    99, 99, 99, 99, 99, 99, 99, 99, 99, 99, 99, 99, 99, 99, 99, 99,
    99, 99, 99, 99, 99, 99, 99, 99, 99, 99, 99, 99, 99, 99, 99, 99,
    99, 99, 99, 99, 99, 99, 99, 99, 99, 99, 99, 99, 99, 99, 99, 99,
    99, 99, 99, 99, 99, 99, 99, 99, 99, 99, 99, 99, 99, 99, 99, 99,
    99, 99, 2, 3, 99, 99, 99, 99, 99, 1, 99, 99, 99, 99, 99, 99,
    99, 99, 99, 99, 99, 99, 99, 99, 99, 99, 99, 99, 99, 99, 99, 99,
    99, 99, 99, 99, 99, 99, 99, 99, 99, 99, 99, 99, 99, 99, 99, 99,
    99, 99, 99, 99, 99, 99, 99, 99, 99, 99, 99, 99, 99, 99, 99, 99,
    99, 99, 99, 99, 99, 99, 99, 99, 99, 99, 99, 99, 99, 99, 99, 99 ]

/-- `InType(c)`; `none` when `c` lies outside the table. -/
def inTypeOf (c : Int) : Option CharType := if c < -1 then none else chtype[(c + 1).toNat]?

/-- `DigVal(c)`; `none` when `c` lies outside the table. -/
def digValOf (c : Int) : Option Int := if c < -1 then none else digval[(c + 1).toNat]?

theorem length_chtype : chtype.length = 257 := by decide +kernel

theorem length_digval : digval.length = 257 := by decide +kernel

theorem exists_inTypeOf {c : Int} (hlo : -1 ≤ c) (hhi : c ≤ 255) : ∃ t, inTypeOf c = some t := by
  rw [inTypeOf, if_neg (by omega)]
  exact ⟨_, List.getElem?_eq_getElem (by rw [length_chtype]; omega)⟩

theorem exists_digValOf {c : Int} (hlo : -1 ≤ c) (hhi : c ≤ 255) : ∃ v, digValOf c = some v := by
  rw [digValOf, if_neg (by omega)]
  exact ⟨_, List.getElem?_eq_getElem (by rw [length_digval]; omega)⟩

theorem inTypeOf_ne_eofch {c : Int} (hlo : 1 ≤ c) (hhi : c ≤ 127) : inTypeOf c ≠ some .eofch := by
  have htable : ∀ i < 129, i ≠ 0 → chtype[i]? ≠ some .eofch := by decide +kernel
  rw [inTypeOf, if_neg (by omega)]
  exact htable _ (by omega) (by omega)

/-! ## Bytes -/

/-- `(BYTE)c`. -/
def toBYTE (c : Int) : UInt8 := UInt8.ofNat (c % 256).toNat

/-- `(CHAR)c`: the byte of `c` as a signed number. -/
def toCHAR (c : Int) : Int := c.bmod 256

theorem toCHAR_of_lt {b : UInt8} (h : b.toNat < 128) : toCHAR b.toNat = b.toNat :=
  Int.bmod_eq_of_le (by omega) (by omega)

theorem toBYTE_toNat (b : UInt8) : toBYTE b.toNat = b := by
  have hlt : b.toNat < 256 := b.toNat_lt
  unfold toBYTE
  rw [show ((b.toNat : Int) % 256).toNat = b.toNat by omega, UInt8.ofNat_toNat]

/-- The low eight bits of `c`, on which the masks of the UTF-8 readers look. -/
def lowByte (c : Int) : Nat := (c % 256).toNat

/-! ## Characters by name -/

abbrev ch (c : Char) : Int := c.toNat

abbrev newline : Int := 10

abbrev carriageReturn : Int := 13

abbrev doubleQuote : Int := 34

abbrev singleQuote : Int := 39

abbrev backslash : Int := 92

abbrev backQuote : Int := 96

namespace intab

abbrev eolcom : Int := ch '%'

abbrev endeol : Int := -1

abbrev begcom : Int := ch '/'

abbrev astcom : Int := ch '*'

abbrev endcom : Int := ch '/'

abbrev radix : Int := singleQuote

abbrev dpoint : Int := ch '.'

abbrev termin : Int := ch '.'

end intab

open Simulation

/-! ## Programs -/

inductive TokenError
  | intOverflow | integer | inCharacter | inEscCharacter | tok2long | eofinrem | badexpt | arith (e : ArithError)
deriving DecidableEq, Repr

inductive Trap
  /-- A character outside the tables. -/
  | table
  /-- A write outside `AtomStr`. -/
  | buffer
  /-- A character from outside the string. -/
  | string
  /-- More rounds of a loop than its bound. -/
  | rounds
  /-- A text on which the two tokenizers are not compared. -/
  | outside
deriving DecidableEq, Repr

/-- The source of the characters, the previous character and the exception. -/
structure ScanState (σ : Type) where
  source : σ
  lastc : Int
  bpException : Option TokenError

abbrev Scan (σ : Type) := StateT (ScanState σ) (Except Trap)

variable {σ : Type}

def setLastc (c : Int) : Scan σ Unit := modify fun s => { s with lastc := c }

def getLastc : Scan σ Int := do return (← get).lastc

def setException (e : TokenError) : Scan σ Unit := modify fun s => { s with bpException := some e }

def getException : Scan σ (Option TokenError) := do return (← get).bpException

def setSource (r : σ) : Scan σ Unit := modify fun s => { s with source := r }

/-- An `if` without an `else`. -/
def when (p : Prop) [Decidable p] (m : Scan σ Unit) : Scan σ Unit := if p then m else pure ()

theorem when_pos {p : Prop} [Decidable p] (h : p) (m : Scan σ Unit) : when p m = m := if_pos h

theorem when_neg {p : Prop} [Decidable p] (h : ¬p) (m : Scan σ Unit) : when p m = pure () := if_neg h

def lookup {α : Type} : Option α → Scan σ α
  | some a => pure a
  | none => throw .table

/-! ## Sources -/

structure Source (σ : Type) where
  getc : Scan σ Int
  ungetc : Int → Scan σ Unit
  inType : Int → Scan σ CharType
  digVal : Int → Scan σ Int
  /-- The bytes still to come. -/
  room : σ → Nat

def Source.loop {α β : Type} (src : Source σ) (body : α → Scan σ (α ⊕ β)) (a : α) : Scan σ β := do
  rounds .rounds body (src.room (← get).source + 2) a

/-- `BP_GETC`. -/
def fileGetc : Scan (List UInt8) Int := do
  match (← get).source with
  | [] => pure (-1)
  | b :: rest =>
    setSource rest
    pure b.toNat

/-- `BP_UNGETC`: `ungetc` takes its argument as a `char`, and -1 for the end of the file. -/
def fileUngetc (c : Int) : Scan (List UInt8) Unit := do
  if toCHAR c = -1 then pure () else setSource (toBYTE c :: (← get).source)

def fileSource : Source (List UInt8) where
  getc := fileGetc
  ungetc := fileUngetc
  inType c := lookup (inTypeOf c)
  digVal c := lookup (digValOf c)
  room rest := rest.length

/-- The pointer `string_in`. -/
structure StringIn where
  /-- The bytes before it, the last one first. -/
  before : List UInt8
  /-- The bytes from it to the NUL. -/
  rest : List UInt8
  /-- It has stepped over the NUL. -/
  past : Bool

/-- `BP_GETC_STRING`, which does not step over the NUL. -/
def stringGetc : Scan StringIn Int := do
  let s := (← get).source
  if s.past then throw .string
  else match s.rest with
    | [] => pure 0
    | b :: rest =>
      setSource { s with before := b :: s.before, rest := rest }
      pure (toCHAR b.toNat)

/-- `*string_in++`. -/
def stringNext : Scan StringIn Int := do
  let s := (← get).source
  if s.past then throw .string
  else match s.rest with
    | [] =>
      setSource { s with past := true }
      pure 0
    | b :: rest =>
      setSource { s with before := b :: s.before, rest := rest }
      pure (toCHAR b.toNat)

/-- `BP_UNGETC_STRING`. -/
def stringUngetc (_ : Int) : Scan StringIn Unit := do
  let s := (← get).source
  if s.past then setSource { s with past := false }
  else match s.before with
    | [] => throw .string
    | b :: before => setSource { s with before := before, rest := b :: s.rest }

def stringSource : Source StringIn where
  getc := stringGetc
  ungetc := stringUngetc
  inType c := lookup (inTypeOf c)
  digVal c := lookup (digValOf c)
  room s := s.rest.length

/-! ## The token buffer -/

/-- `MAX_STR_LEN`, the length of `AtomStr`. -/
abbrev maxStrLen : Nat := 8192

/-- `*s++ = c`, where the text before `s` is given. -/
def putChar (s : List UInt8) (c : Int) : Scan σ (List UInt8) :=
  if s.length < maxStrLen then pure (s ++ [toBYTE c]) else throw .buffer

/-- `*s = 0`. -/
def putEnd (s : List UInt8) : Scan σ Unit := if s.length < maxStrLen then pure () else throw .buffer

/-- `*s++ = c` for one character after the other. -/
def putText (s : List UInt8) (cs : List Int) : Scan σ (List UInt8) := cs.foldlM putChar s

/-- The bytes that `utf8_codepoint_to_str` writes. -/
def utf8CodepointToStr (code : Int) : List Int :=
  if code < 0x80 then [code]
  else if code < 0x800 then [192 + code.tdiv 64, 128 + code.tmod 64]
  else if code < 0x10000 then [224 + code.tdiv 4096, 128 + (code.tdiv 64).tmod 64, 128 + code.tmod 64]
  else [240 + code.tdiv 262144, 128 + (code.tdiv 4096).tmod 64, 128 + (code.tdiv 64).tmod 64, 128 + code.tmod 64]

/-- `UTF8_CODEPOINT_TO_STR`, with the text so far and the slots left in `AtomStr`. -/
def putCodepoint (code : Int) : List UInt8 × Int → Scan σ (List UInt8 × Int)
  | (s, n) =>
    if code ≤ 127 then
      if n - 1 < 0 then do
        setException .tok2long
        pure (s, n - 1)
      else do
        let s ← putChar s code
        pure (s, n - 1)
    else if n < 4 then do
      setException .tok2long
      pure (s, n)
    else do
      let s1 ← putText s (utf8CodepointToStr code)
      pure (s1, n - (s1.length - s.length))

end Picat

/-! # Characters of quoted items, and comments -/

namespace Picat

variable {σ : Type}

def isContinuation (c : Int) : Bool := lowByte c &&& 0xc0 = 0x80

/-- The readers of UTF-8 sequences after the leading byte `c`; `back2` says when the byte after a two-byte lead is given
back. -/
def utf8Sequence (src : Source σ) (back2 : Int → Bool) (c : Int) : Scan σ Int := do
  if lowByte c &&& 0xe0 = 0xc0 then
    let b2 ← src.getc
    if isContinuation b2 then pure (((lowByte c &&& 0x1f) <<< 6 ||| (lowByte b2 &&& 0x3f) : Nat) : Int)
    else
      when (back2 b2) (src.ungetc b2)
      pure c
  else if lowByte c &&& 0xf0 = 0xe0 then
    let b2 ← src.getc
    if isContinuation b2 then
      let b3 ← src.getc
      if isContinuation b3 then
        pure (((lowByte c &&& 0xf) <<< 12 ||| (lowByte b2 &&& 0x3f) <<< 6 ||| (lowByte b3 &&& 0x3f) : Nat) : Int)
      else
        when (b3 > 0) (src.ungetc b3)
        src.ungetc b2
        pure c
    else
      when (b2 > 0) (src.ungetc b2)
      pure c
  else if lowByte c &&& 0xf8 = 0xf0 then
    let b2 ← src.getc
    if isContinuation b2 then
      let b3 ← src.getc
      if isContinuation b3 then
        let b4 ← src.getc
        if isContinuation b4 then
          pure (((lowByte c &&& 0xf) <<< 18 ||| (lowByte b2 &&& 0x3f) <<< 12 ||| (lowByte b3 &&& 0x3f) <<< 6 |||
            (lowByte b4 &&& 0x3f) : Nat) : Int)
        else
          when (b4 > 0) (src.ungetc b4)
          src.ungetc b3
          src.ungetc b2
          pure c
      else
        when (b3 > 0) (src.ungetc b3)
        src.ungetc b2
        pure c
    else
      when (b2 > 0) (src.ungetc b2)
      pure c
  else pure c

/-! ## Escape sequences -/

/-- `n` as an `int`. -/
def cInt (n : Int) : Int := n.bmod (2 ^ 32)

/-- The characters that end the digits of an escape sequence, in a source that ends with `eof`. -/
def endsDigits (eof c : Int) : Prop := c = eof ∨ c = singleQuote ∨ c = backslash ∨ c = newline

instance (eof c : Int) : Decidable (endsDigits eof c) := by unfold endsDigits; infer_instance

/-- The loop over the digits of `\xhh\` and `\ooo\`: the number, and the character after the digits, `none` after a
character that is no digit. -/
def escapeDigits (src : Source σ) (eof base n : Int) : Scan σ (Int × Option Int) := do
  let c ← src.getc
  src.loop (fun (n, c) => do
    if endsDigits eof c then pure (.inr (n, some c))
    else
      let v ← src.digVal c
      if v ≤ base - 1 then
        let c ← src.getc
        pure (.inl (bplong (n * base + v), c))
      else
        setException .inCharacter
        pure (.inr (n, none))) (n, c)

def escapeEnd (n c : Int) : Scan σ Int := do
  when (c ≠ backslash) (setException .inCharacter)
  pure (cInt n)

/-- `\xhh\` and `\ooo\` in a file. -/
def escapeNumber (src : Source σ) (base n : Int) : Scan σ Int := do
  match ← escapeDigits src (-1) base n with
  | (n, none) => pure (cInt n)
  | (n, some c) => escapeEnd n c

def escapeNumberString (src : Source σ) (base n : Int) : Scan σ Int := do
  match ← escapeDigits src 0 base n with
  | (n, none) => pure (cInt n)
  | (n, some c) =>
    when (c = newline) (src.ungetc c)
    escapeEnd n c

/-- `k` hexadecimal digits of a `\u` escape; `false` after a character that is no digit. -/
def unicodeDigits (src : Source σ) : Nat → Int → Scan σ (Int × Bool)
  | 0, n => pure (n, true)
  | k + 1, n => do
    let c ← src.getc
    let v ← src.digVal c
    if v ≤ 15 ∧ c ≠ ch '_' then unicodeDigits src k (bplong (n * 16 + v))
    else
      setException .inCharacter
      pure (n, false)

/-- `\uxxxx` and `\uxxxxxxxx`. -/
def escapeUnicode (src : Source σ) : Scan σ Int := do
  match ← unicodeDigits src 4 0 with
  | (n, false) => pure (cInt n)
  | (n, true) =>
    let c ← src.getc
    let v ← src.digVal c
    if v ≤ 15 ∧ c ≠ ch '_' then
      let (n, _) ← unicodeDigits src 3 (bplong (n * 16 + v))
      pure (cInt n)
    else
      when (c > 0) (src.ungetc c)
      pure (cInt n)

/-- The escapes of one character, by the letter after the backslash. -/
def escapeLetter (c : Int) : Option Int :=
  if c = ch 'a' then some 7
  else if c = ch 'b' then some 8
  else if c = ch 'r' then some 13
  else if c = ch 'f' then some 12
  else if c = ch 't' then some 9
  else if c = ch 'n' then some 10
  else if c = ch 'v' then some 11
  else if c = backslash ∨ c = doubleQuote ∨ c = singleQuote ∨ c = backQuote then some c
  else none

/-- The `switch` of `read_utf8_character`; `none` after a line continuation. -/
def readEscape (src : Source σ) : Scan σ (Option Int) := do
  let c ← src.getc
  if c = -1 then
    setException .inCharacter
    pure (some (-1))
  else if c = carriageReturn then
    let _ ← src.getc
    pure none
  else if c = newline then pure none
  else match escapeLetter c with
    | some d => pure (some d)
    | none =>
      if c = ch 'x' ∨ c = ch 'X' then some <$> escapeNumber src 16 0
      else if c = ch 'u' ∨ c = ch 'U' then some <$> escapeUnicode src
      else if ch '0' ≤ c ∧ c ≤ ch '7' then do
        let n ← src.digVal c
        some <$> escapeNumber src 8 n
      else do
        setException .inEscCharacter
        pure (some c)

def handleEolInQuoted2 : Scan σ Int := do
  setLastc 0
  setException .inCharacter
  pure (-1)

/-- The `switch` of `read_utf8_character_string`. -/
def readEscapeString (src : Source σ) : Scan σ Int := do
  let c ← src.getc
  if c = newline ∨ c = 0 then handleEolInQuoted2
  else match escapeLetter c with
    | some d => pure d
    | none =>
      if c = ch 'x' then escapeNumberString src 16 0
      else if c = ch 'u' ∨ c = ch 'U' then escapeUnicode src
      else if ch '0' ≤ c ∧ c ≤ ch '7' then do
        let n ← src.digVal c
        escapeNumberString src 8 n
      else do
        setException .inEscCharacter
        pure c

/-! ## The two readers -/

/-- The character `q` inside an item that `q` encloses: doubled it is itself, alone it ends the item. -/
def closeQuoted (src : Source σ) (q : Int) : Scan σ Int := do
  let c ← src.getc
  if c = q then pure c
  else
    setLastc c
    pure (-1)

/-- `read_utf8_character` up to its recursive call, which a line continuation leads to. -/
def readUtf8Once (src : Source σ) (q : Int) : Scan σ (Unit ⊕ Int) := do
  let c ← src.getc
  if c < 0 then
    setLastc c
    setException .inCharacter
    pure (.inr (-1))
  else if q = -1 then pure (.inr c)
  else if c = q then .inr <$> closeQuoted src q
  else if c ≠ backslash then
    if lowByte c &&& 0x80 ≠ 0 then .inr <$> utf8Sequence src (fun b2 => b2 > 0) c else pure (.inr c)
  else
    match ← readEscape src with
    | some d => pure (.inr d)
    | none => pure (.inl ())

def readUtf8Character (src : Source σ) (q : Int) : Scan σ Int := src.loop (fun _ => readUtf8Once src q) ()

def readUtf8CharacterString (src : Source σ) (q : Int) : Scan σ Int := do
  let c ← src.getc
  if c = 0 then handleEolInQuoted2
  else if q = -1 then pure c
  else if c = q then closeQuoted src q
  else if c ≠ backslash then
    if lowByte c &&& 0x80 ≠ 0 then utf8Sequence src (fun b2 => b2 ≠ 0) c else pure c
  else readEscapeString src

/-! ## Comments -/

/-- `com0plain`: the character after the line. -/
def com0plain (src : Source σ) (endeol : Int) : Scan σ Int := do
  let c ← src.getc
  let c ← src.loop (fun c => do
    if c ≥ 0 ∧ c ≠ newline ∧ c ≠ endeol then .inl <$> src.getc else pure (.inr c)) c
  if c ≥ 0 then src.getc else pure c

def com0plainString (endeol : Int) : Scan StringIn Int := do
  let c ← stringNext
  let c ← stringSource.loop (fun c => do
    if c > 0 ∧ c ≠ newline ∧ c ≠ endeol then .inl <$> stringNext else pure (.inr c)) c
  if c > 0 then stringNext else pure c

/-- `com2plain`: `false` when the source ends in the comment. -/
def com2plain (src : Source σ) (astcom endcom : Int) : Scan σ Bool := do
  let c ← src.getc
  let c ← src.loop (fun (c, state) => do
    if c ≥ 0 then
      if c = endcom ∧ state then pure (.inr c)
      else
        let d ← src.getc
        pure (.inl (d, decide (c = astcom)))
    else pure (.inr c)) (c, false)
  if c < 0 then
    setException .eofinrem
    pure false
  else pure true

def com2plainString (src : Source σ) (astcom endcom : Int) : Scan σ Bool := do
  let c ← src.getc
  let c ← src.loop (fun (c, state) => do
    if c > 0 then
      if c = endcom ∧ state then pure (.inr c)
      else
        let d ← src.getc
        pure (.inl (d, decide (c = astcom)))
    else pure (.inr c)) (c, false)
  if c = 0 then
    setException .eofinrem
    pure false
  else pure true

end Picat
