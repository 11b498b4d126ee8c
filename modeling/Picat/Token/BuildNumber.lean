import Picat.Token.NumberText

/-!
# Numbers from lists of codes

`b_BLDNUM_fc` writes a list of character codes to a string, takes a sign off it and calls the tokenizer.

* `readsBack_iff` : the integers that come back.
-/

namespace Picat
open Simulation Digits List

/-- `sprintf(bp_buf, "%lld", v)`. -/
def sprintfLong (v : Int) : List Char := (if v < 0 then ['-'] else []) ++ sprintfInt v.natAbs ++ [Char.ofNat 0]

/-- `print_term_to_buf` of an integer: `bp_buf` to its NUL. -/
def printTermToBuf : Term → Except WriteError (List Char)
  | .int v => .ok (sprintfLong v)
  | .bigint op => (bpWriteBigintToStr op maxStrLen).map Prod.snd

/-- The text of an integer in `b_NAME0_cf`, which prints `(int)INTVAL(op1)`. -/
def bNAME0 : Term → Except WriteError (List Char)
  | .int v => .ok (sprintfLong (v.bmod (2 ^ 32)))
  | .bigint op => (bpWriteBigintToStr op maxStrLen).map Prod.snd

/-! ## The reader -/

inductive CodeItem
  | int (a : Int)
  | ref
  | other
deriving DecidableEq, Repr

inductive CodesEnd
  | nil
  | ref
  | other
deriving DecidableEq, Repr

inductive BldnumError
  | instantiation
  | characterCode
  | typeList
  | invalidNumberFormat
  | trap (e : Trap)
deriving DecidableEq, Repr

/-- The loop over the list: the characters from `name` to `s`. -/
def codesBytes : List CodeItem → CodesEnd → Except BldnumError (List UInt8)
  | [], .nil => .ok []
  | [], .ref => .error .instantiation
  | [], .other => .error .typeList
  | .ref :: _, _ => .error .instantiation
  | .other :: _, _ => .error .characterCode
  | .int a :: l, tail => if a < 0 then .error .characterCode else (codesBytes l tail).map (toBYTE a :: ·)

/-- The first character, and behind a minus sign the next one, in `lastc`; the result is `sign`. -/
def readSign : Scan StringIn Int := do
  let c ← stringNext
  if c = ch '-' then
    let c ← stringNext
    setLastc c
    pure (-1)
  else
    setLastc c
    pure 1

/-- `b_NEXT_TOKEN_ff` on a string: the second argument, or `BP_ERROR`. -/
def bNextToken (fl : Flags) (s : ScanState StringIn) : Except Trap (Option TokenValue × ScanState StringIn) :=
  match (getToken stringReader fl s).result with
  | .error e => .error e
  | .ok (none, s) => .ok (none, s)
  | .ok (some t, s) =>
    if s.bpException ≠ none then .ok (none, s)
    else match tokenValue t with
      | .ok v => .ok (some v, s)
      | .error .table => .error .table
      | .error (.arith _) => .ok (none, s)

def signedValue (sign : Int) : TokenValue → Except BldnumError TokenValue
  | .number (.int v) => .ok (.number (if sign = 1 then .int v else makeint (-1 * v)))
  | .float _ s => .ok (.float (sign ≠ 1) s)
  | .number (.bigint _) | .other => .error .invalidNumberFormat

/-- The number that is read from the string `name`. -/
def numberOfText (fl : Flags) (name : List UInt8) : Except BldnumError TokenValue := do
  let (sign, s) ← (readSign ⟨⟨[], name, false⟩, ch ' ', none⟩).mapError .trap
  let (res, s) ← (bNextToken fl s).mapError .trap
  if s.lastc ≠ 0 then .error .invalidNumberFormat
  else res.elim (.error .invalidNumberFormat) (signedValue sign)

def bBLDNUM (fl : Flags) (l : List CodeItem) (tail : CodesEnd) : Except BldnumError TokenValue := do
  let name ← codesBytes l tail
  numberOfText fl (name.takeWhile (· ≠ 0))

def textCodes (text : List Char) : List CodeItem := (text.takeWhile (· ≠ Char.ofNat 0)).map fun c => .int c.toNat

/-- The text that `write` gives for a number, read as a list of codes, is the number again. -/
def ReadsBack (write : Term → Except WriteError (List Char)) (fl : Flags) (n : Term) : Prop :=
  ∃ text, write n = .ok text ∧ bBLDNUM fl (textCodes text) .nil = .ok (.number n)

/-! ## Texts with a sign and digits -/

/-- A minus sign exactly for a negative number, digits of its magnitude, and a NUL. -/
def Written (text : List Char) (v : Int) : Prop :=
  ∃ ds : List Nat, text = (if v < 0 then ['-'] else []) ++ ds.map asciiDigit ++ [Char.ofNat 0] ∧ (∀ d ∈ ds, d < 10) ∧
    ds ≠ [] ∧ Nat.ofDigits 10 ds.reverse = v.natAbs

theorem written_sprintfLong (v : Int) : Written (sprintfLong v) v := by
  by_cases h0 : v.natAbs = 0
  · refine ⟨[0], ?_, by decide, by decide, h0.symm⟩
    rw [sprintfLong, sprintfInt, if_pos h0]
    rfl
  · refine ⟨(Nat.digits 10 v.natAbs).reverse, ?_, ?_, ?_, ?_⟩
    · rw [sprintfLong, sprintfInt, if_neg h0]
    · exact fun d hd => Nat.digits_lt_base (by decide) (mem_reverse.1 hd)
    · rw [Ne, reverse_eq_nil_iff]
      exact Nat.digits_ne_nil_iff_ne_zero.2 h0
    · rw [reverse_reverse, Nat.ofDigits_digits]

variable {v : Int}

theorem IsNumeral.written {text : List Char} {v : Int} (h : IsNumeral text v) : Written text v := by
  obtain ⟨ds, htext, hlt, ⟨d, hd, -⟩, hval⟩ := h
  refine ⟨ds, htext, hlt, ?_, hval⟩
  rintro rfl
  cases hd

theorem length_sprintfLong (h : v.natAbs < 2 ^ 56) : (sprintfLong v).length ≤ maxStrLen := by
  have hdigits : (Nat.digits 10 v.natAbs).length ≤ 17 := by
    rw [Nat.digits_length_le_iff (by decide)]
    exact lt_trans h (by decide)
  have hint : (sprintfInt v.natAbs).length ≤ 17 := by
    unfold sprintfInt
    split_ifs
    · decide
    · rw [length_map, length_reverse]
      exact hdigits
  have hsign : (if v < 0 then ['-'] else []).length ≤ 1 := by split_ifs <;> decide
  rw [sprintfLong, length_append, length_append, length_singleton]
  unfold maxStrLen
  omega

/-! ## Reading -/

section
variable {ds : List Nat}

def signBytes (v : Int) : List UInt8 := if v < 0 then [45] else []

theorem codesBytes_map {cs : List Char} (h : ∀ c ∈ cs, c.toNat < 256) :
    codesBytes (cs.map fun c => .int c.toNat) .nil = .ok (cs.map fun c => UInt8.ofNat c.toNat) := by
  induction cs with
  | nil => rfl
  | cons c cs ih =>
    have hc := h c mem_cons_self
    have hbyte : toBYTE c.toNat = UInt8.ofNat c.toNat := by
      unfold toBYTE
      rw [show ((c.toNat : Int) % 256).toNat = c.toNat by omega]
    rw [map_cons, codesBytes, if_neg (by omega), ih fun x hx => h x (mem_cons_of_mem _ hx), hbyte]
    rfl

theorem signChars (v : Int) (hlt : ∀ d ∈ ds, d < 10) :
    ((if v < 0 then ['-'] else []) ++ ds.map asciiDigit ++ [Char.ofNat 0]).takeWhile (· ≠ Char.ofNat 0) =
      (if v < 0 then ['-'] else []) ++ ds.map asciiDigit := by
  rw [takeWhile_append_of_pos, takeWhile_cons_of_neg (by simp), append_nil]
  intro c hc
  rcases mem_append.1 hc with hc | hc
  · split_ifs at hc
    · rw [mem_singleton.1 hc]
      decide
    · cases hc
  · obtain ⟨d, hd, rfl⟩ := mem_map.1 hc
    simpa using (digitOf_digitByte d (hlt d hd)).2.2

theorem asciiDigit_lt {d : Nat} (h : d < 10) : (asciiDigit d).toNat < 256 := by
  have htable : ∀ d < 10, (asciiDigit d).toNat < 256 := by decide +kernel
  exact htable d h

theorem digitByte_ne_zero {d : Nat} (h : d < 10) : digitByte d ≠ 0 := digit_ne_zero (digitOf_digitByte d h).1

theorem bBLDNUM_textCodes (fl : Flags) (v : Int) (hlt : ∀ d ∈ ds, d < 10) :
    bBLDNUM fl (textCodes ((if v < 0 then ['-'] else []) ++ ds.map asciiDigit ++ [Char.ofNat 0])) .nil =
      numberOfText fl (signBytes v ++ ds.map digitByte) := by
  have hbytes : codesBytes (textCodes ((if v < 0 then ['-'] else []) ++ ds.map asciiDigit ++ [Char.ofNat 0])) .nil =
      .ok (signBytes v ++ ds.map digitByte) := by
    rw [textCodes, signChars v hlt, codesBytes_map, List.map_append, map_map]
    · unfold signBytes
      split_ifs <;> rfl
    · intro c hc
      rcases mem_append.1 hc with hc | hc
      · split_ifs at hc
        · rw [mem_singleton.1 hc]
          decide
        · cases hc
      · obtain ⟨d, hd, rfl⟩ := mem_map.1 hc
        exact asciiDigit_lt (hlt d hd)
  have hname : (signBytes v ++ ds.map digitByte).takeWhile (· ≠ 0) = signBytes v ++ ds.map digitByte := by
    apply takeWhile_eq_self_iff.2
    intro b hb
    rcases mem_append.1 hb with hb | hb
    · unfold signBytes at hb
      split_ifs at hb
      · rw [mem_singleton.1 hb]
        decide
      · cases hb
    · obtain ⟨d, hd, rfl⟩ := mem_map.1 hb
      simpa using digitByte_ne_zero (hlt d hd)
  rw [bBLDNUM, hbytes]
  show numberOfText fl ((signBytes v ++ ds.map digitByte).takeWhile (· ≠ 0)) = _
  rw [hname]

theorem stringNext_byte (before rest : List UInt8) (b : UInt8) (lastc : Int) (e : Option TokenError) :
    stringNext ⟨⟨before, b :: rest, false⟩, lastc, e⟩ = .ok (toCHAR b.toNat, ⟨⟨b :: before, rest, false⟩, lastc, e⟩) := rfl

theorem readSign_run (v : Int) (hlt : ∀ d ∈ ds, d < 10) (hne : ds ≠ []) :
    ∃ s, readSign ⟨⟨[], signBytes v ++ ds.map digitByte, false⟩, ch ' ', none⟩ = .ok (if v < 0 then -1 else 1, s) ∧
      stringFeed.Ready (stringChars (ds.map digitByte)) s := by
  obtain ⟨d, ds, rfl⟩ := exists_cons_of_ne_nil hne
  have hd := hlt d mem_cons_self
  have hbyte := digitOf_ten (digitOf_digitByte d hd).1 hd
  have hchar : toCHAR (digitByte d).toNat = (d : Int) + 48 := by
    rw [toCHAR_digit (digitOf_digitByte d hd).1, hbyte]
    rfl
  have hminus : toCHAR (digitByte d).toNat ≠ ch '-' := by
    rw [hchar]
    show (d : Int) + 48 ≠ 45
    omega
  have hready : ∀ before, stringFeed.Ready (stringChars ((d :: ds).map digitByte))
      ⟨⟨before, ds.map digitByte, false⟩, toCHAR (digitByte d).toNat, none⟩ := by
    refine fun _ => .inl ⟨?_, rfl, rfl⟩
    rw [stringChars, map_cons, map_cons, headD_cons]
  unfold signBytes
  rw [map_cons]
  split_ifs
  · refine ⟨_, ?_, hready [digitByte d, 45]⟩
    rw [readSign, singleton_append, bind_of_ok (stringNext_byte ..), if_pos (by decide), bind_of_ok (stringNext_byte ..)]
    rfl
  · refine ⟨_, ?_, hready [digitByte d]⟩
    rw [readSign, nil_append, bind_of_ok (stringNext_byte ..), if_neg hminus]
    rfl

theorem numberOfText_run (fl : Flags) (v : Int) (hlt : ∀ d ∈ ds, d < 10) (hne : ds ≠ []) (hlen : ds.length < maxStrLen) :
    numberOfText fl (signBytes v ++ ds.map digitByte) =
      signedValue (if v < 0 then -1 else 1) (.number (numberTerm (Nat.ofDigits 10 ds.reverse : Nat))) := by
  obtain ⟨s, hsign, hready⟩ := readSign_run v hlt hne
  obtain ⟨hdigits, hfirst, hval, hstored, hends⟩ := exists_decimal hlt hne
  have hfits : (Numeral.decimal (ds.map digitByte) hdigits hfirst).Fits [] := by
    refine ⟨?_, nofun⟩
    rw [hstored, length_map]
    exact hlen
  have hready' : stringFeed.Ready (stringChars ((Numeral.decimal (ds.map digitByte) hdigits hfirst).text ++ [])) s := by
    rw [append_nil]
    exact hready
  rw [stringChars, coded_string.map_append] at hready'
  obtain ⟨s', hrun, hexc, hlast⟩ := (Feed.getToken_run (R := stringReader) stringFeed coded_string fl
    (fun c hc => decide_eq_false (ne_of_gt hc)) _ hends hready').1 hfits
  have htoken : bNextToken fl s = .ok (some (.number (numberTerm (Nat.ofDigits 10 ds.reverse : Nat))), s') := by
    unfold bNextToken
    rw [hrun]
    dsimp only
    rw [if_neg (not_not.2 hexc), tokenValue_token, hval]
  rw [numberOfText, hsign]
  show (do
    let (res, s) ← (bNextToken fl s).mapError BldnumError.trap
    if s.lastc ≠ 0 then .error BldnumError.invalidNumberFormat
    else res.elim (.error .invalidNumberFormat) (signedValue (if v < 0 then -1 else 1))) = _
  rw [htoken]
  show (if s'.lastc ≠ 0 then Except.error BldnumError.invalidNumberFormat else _) = _
  rw [if_neg (not_not.2 (hlast rfl))]
  rfl

theorem bBLDNUM_written (fl : Flags) {text : List Char} (h : Written text v) (hlen : text.length ≤ maxStrLen) :
    bBLDNUM fl (textCodes text) .nil = signedValue (if v < 0 then -1 else 1) (.number (numberTerm v.natAbs)) := by
  obtain ⟨ds, rfl, hlt, hne, hval⟩ := h
  rw [length_append, length_append, length_map, length_singleton] at hlen
  rw [bBLDNUM_textCodes fl v hlt, numberOfText_run fl v hlt hne (by omega), hval]

end

/-! ## Reading back -/

theorem numberTerm_word (h : bpIn1WIntRange v) : numberTerm v = .int v :=
  ((show Denotes (.int v) v from ⟨h, rfl⟩).eq_numberTerm).symm

theorem signedValue_word (h : bpIn1WIntRange v) :
    signedValue (if v < 0 then -1 else 1) (.number (numberTerm v.natAbs)) = .ok (.number (.int v)) := by
  have habs : bpIn1WIntRange v.natAbs := by
    rw [in1W_iff] at h ⊢
    exact h
  have hmake : makeint v = .int v := (makeint_eq_numberTerm h).trans (numberTerm_word h)
  rw [numberTerm_word habs]
  by_cases hneg : v < 0
  · rw [if_pos hneg, signedValue, if_neg (by decide), show -1 * (v.natAbs : Int) = v by omega, hmake]
  · rw [if_neg hneg, signedValue, if_pos rfl, show ((v.natAbs : Nat) : Int) = v by omega]

theorem signedValue_bigint (h : ¬ bpIn1WIntRange v) (sign : Int) :
    signedValue sign (.number (numberTerm v.natAbs)) = .error .invalidNumberFormat := by
  cases hterm : numberTerm v.natAbs with
  | int w =>
    have hden := numberTerm_denotes v.natAbs
    rw [hterm] at hden
    have hcanon : bpIn1WIntRange w := hden.1
    have hval : w = v.natAbs := hden.2
    rw [hval, in1W_iff] at hcanon
    rw [in1W_iff] at h
    exact absurd hcanon h
  | bigint b => rfl

theorem bBLDNUM_sprintfLong (fl : Flags) (h : bpIn1WIntRange v) :
    bBLDNUM fl (textCodes (sprintfLong v)) .nil = .ok (.number (.int v)) := by
  rw [bBLDNUM_written fl (written_sprintfLong v) (length_sprintfLong (in1W_iff.1 h)), signedValue_word h]

theorem not_readsBack_bigint (write : Term → Except WriteError (List Char)) {op : Bigint} (fl : Flags)
    (hop : (Term.bigint op).Canon) (hwrite : write (.bigint op) = (bpWriteBigintToStr op maxStrLen).map Prod.snd) :
    ¬ ReadsBack write fl (.bigint op) := by
  rintro ⟨text, htext, hread⟩
  have hspec := bpWriteBigintToStr_spec op hop maxStrLen (by decide)
  rw [hwrite] at htext
  rcases le_or_gt (decimalLength (Term.bigint op).val.natAbs + 3) maxStrLen with hfit | hshort
  · obtain ⟨i, text', hok, hnum, hi, hlen⟩ := hspec.1 hfit
    rw [hok] at htext
    cases htext
    rw [bBLDNUM_written fl hnum.written (by omega), signedValue_bigint (not_in1W_of_canon hop)] at hread
    cases hread
  · rw [hspec.2 hshort] at htext
    cases htext

theorem bmod_eq_self_iff (v : Int) : v.bmod (2 ^ 32) = v ↔ -2 ^ 31 ≤ v ∧ v < 2 ^ 31 := by
  constructor
  · intro h
    have hle := Int.le_bmod (x := v) (m := 2 ^ 32) (by decide)
    have hlt := Int.bmod_lt (x := v) (m := 2 ^ 32) (by decide)
    rw [h] at hle hlt
    omega
  · rintro ⟨hle, hlt⟩
    exact Int.bmod_eq_of_le (by omega) (by omega)

theorem in1W_bmod (v : Int) : bpIn1WIntRange (v.bmod (2 ^ 32)) := by
  have hle := Int.le_bmod (x := v) (m := 2 ^ 32) (by decide)
  have hlt := Int.bmod_lt (x := v) (m := 2 ^ 32) (by decide)
  unfold bpIn1WIntRange bpMinint1W bpMaxint1W
  omega

/-- The text of `print_term_to_buf` is read back for the integers of one word and for no other ones, and the text of
`b_NAME0_cf` for those of 32 bits. -/
theorem readsBack_iff (fl : Flags) (n : Number) : (ReadsBack printTermToBuf fl n.term ↔ bpIn1WIntRange n.val) ∧
    (ReadsBack bNAME0 fl n.term ↔ -2 ^ 31 ≤ n.val ∧ n.val < 2 ^ 31) := by
  obtain ⟨t, hcanon⟩ := n
  show (ReadsBack printTermToBuf fl t ↔ bpIn1WIntRange t.val) ∧
    (ReadsBack bNAME0 fl t ↔ -2 ^ 31 ≤ t.val ∧ t.val < 2 ^ 31)
  cases t with
  | int v =>
    constructor
    · exact iff_of_true ⟨_, rfl, bBLDNUM_sprintfLong fl hcanon⟩ hcanon
    · show _ ↔ -2 ^ 31 ≤ v ∧ v < 2 ^ 31
      rw [← bmod_eq_self_iff]
      constructor
      · rintro ⟨text, htext, hread⟩
        cases htext
        rw [bBLDNUM_sprintfLong fl (in1W_bmod v)] at hread
        injection hread with hread
        injection hread with hread
        injection hread
      · intro h
        refine ⟨_, rfl, ?_⟩
        rw [bBLDNUM_sprintfLong fl (in1W_bmod v), h]
  | bigint op =>
    have hbig := not_in1W_of_canon hcanon
    refine ⟨iff_of_false (not_readsBack_bigint printTermToBuf fl hcanon rfl) hbig,
      iff_of_false (not_readsBack_bigint bNAME0 fl hcanon rfl) fun h => hbig ?_⟩
    unfold bpIn1WIntRange bpMinint1W bpMaxint1W
    omega

/-- `2^56` -/
theorem readsBack_two_pow_56 : ¬ ∀ (fl : Flags) (n : Number), ReadsBack printTermToBuf fl n.term := by
  intro h
  have hop : (Term.bigint ⟨3, [0, 0, 1]⟩).Canon := by unfold Term.Canon Valid Stripped; decide
  exact not_readsBack_bigint printTermToBuf ⟨1, 0⟩ hop rfl (h ⟨1, 0⟩ ⟨.bigint ⟨3, [0, 0, 1]⟩, hop⟩)

end Picat
