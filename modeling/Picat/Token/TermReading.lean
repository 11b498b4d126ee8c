import Mathlib.Data.Fin.VecNotation
import Picat.Token.TermString

/-!
# Strings of terms, read back

* `Meets`, `Writable`, `bpTerm2String_meets_iff` : when the string of a term is read back.
-/

namespace Picat
open Simulation List

/-! ## Tokens -/

namespace Piece

def tokens : Piece → List Token
  | int n => (if n < 0 then [.lower [45]] else []) ++ [.digit ((decimalDigits n.natAbs).map digitByte)]
  | name s => [.lower (validText s)]
  | punct c => [.punct [c.byte]]

def wrap : Piece → Piece
  | int n => int (toInt32 n)
  | p => p

end Piece

namespace BpTerm

def tokens (t : BpTerm) : List Token := t.pieces.flatMap Piece.tokens

def wrap : BpTerm → BpTerm
  | int n => int (toInt32 n)
  | atom sym => atom sym
  | list car cdr => list car.wrap cdr.wrap
  | str sym args => str sym fun i => (args i).wrap

end BpTerm

def takeTokens : List Outcome → Option (List Token)
  | .token t :: l => if t = .endcl then some [] else (takeTokens l).map (t :: ·)
  | _ => none

def readText (parse : List Token → Option BpTerm) (fl : Flags) (text : List UInt8) : Option BpTerm :=
  (takeTokens (stringReading fl (text.length + 1) text)).bind parse

/-! ## Calls -/

section
variable {σ : Type} {R : Reader σ} {eof : Int} {F : Feed R.toSource eof} {f : UInt8 → Int} {s : ScanState σ}
  {rest : List Int}

def Ends (eof : Int) (rest : List Int) : Prop := rest.headD eof = eof ∨ ∃ c : Punct, rest.headD eof = c.byte.toNat

theorem Ends.cases {P : Int → Prop} (h : Ends eof rest) (heof : eof = -1 ∨ eof = 0) (h1 : P (-1)) (h0 : P 0)
    (hpunct : ∀ c : Punct, P c.byte.toNat) : P (rest.headD eof) := by
  rcases h with h | ⟨c, h⟩
  · rw [h]
    rcases heof with rfl | rfl
    · exact h1
    · exact h0
  · rw [h]
    exact hpunct c

theorem Ends.name (F : Feed R.toSource eof) (h : Ends eof rest) : EndsName eof rest where
  quote := h.cases (P := (· ≠ singleQuote)) F.eof_cases (by decide) (by decide) fun c => by cases c <;> decide
  name := h.cases (P := (isNameChar · = false)) F.eof_cases (by decide) (by decide) fun c => by cases c <;> decide
  type := h.cases (P := (inTypeOf · ≠ none)) F.eof_cases (by decide) (by decide) fun c => by cases c <;> decide

section
variable (hf : Coded f) (hnul : ∀ c, 0 < c → R.atNul c = false) (fl : Flags)
include hf hnul fl

theorem calls_punct (c : Punct) (hbar : c = .bar → rest.headD eof ≠ ch '|') (h : F.Ready (f c.byte :: rest) s) :
    Calls F fl s (.punct [c.byte]) rest := by
  have hascii : f c.byte = c.byte.toNat := hf.of_lt (by cases c <;> decide)
  have hchar : inTypeOf c.byte.toNat = some .punct ∧ 0 < (c.byte.toNat : Int) ∧ (c.byte.toNat : Int) ≠ intab.termin ∧
      (c.byte.toNat : Int) ≠ intab.eolcom ∧ (c.byte.toNat : Int) ≠ intab.begcom ∧
      ((c.byte.toNat : Int) = ch '|' → c = .bar) := by
    cases c <;> decide
  obtain ⟨htype, hpos, htermin, heolcom, hbegcom, honly⟩ := hchar
  rw [hascii] at h
  refine calls_of_pass (hnul _ (by decide)) ?_ h
  intro s hat hexc
  obtain ⟨r, hr, -, hget⟩ := F.getc hat
  refine ⟨r, hr, ?_⟩
  rw [scanToken, hnul _ hpos, if_neg Bool.false_ne_true, bind_of_ok (F.inType_run htype s)]
  show casePunct R fl _ s = _
  rw [casePunct, endOrComment, if_neg htermin, if_neg fun hboth => heolcom hboth.2, bind_of_ok hget,
    if_neg fun hboth => hbegcom hboth.1, if_neg fun hboth => hbar (honly hboth.1) hboth.2,
    bind_of_ok (putChar_room (by decide) _ _), toBYTE_toNat]
  rw [← hexc]
  rfl

theorem calls_minus {b : UInt8}
    (hb : inTypeOf b.toNat = some .digit) (hascii : b.toNat < 128) (h : F.Ready (f 45 :: f b :: rest) s) :
    Calls F fl s (.lower [45]) (f b :: rest) := by
  have hminus : f 45 = ch '-' := hf.of_lt (by decide)
  rw [hminus, hf.of_lt hascii] at h
  rw [hf.of_lt hascii]
  refine calls_of_pass (hnul _ (by decide)) ?_ h
  intro s hat hexc
  obtain ⟨r, hr, hget⟩ := getc_cons F hat
  refine ⟨r, hr, ?_⟩
  have htype : inTypeOf (ch '-') = some .sign := by decide
  rw [scanToken, hnul _ (by decide), if_neg Bool.false_ne_true, bind_of_ok (F.inType_run htype s)]
  show caseSign R (ch '-') s = _
  have hloop : R.loop (signRound R) ([toBYTE (ch '-')], (maxStrLen : Int), (b.toNat : Int)) { s with source := r } =
      .ok (([toBYTE (ch '-')], (b.toNat : Int)), { s with source := r }) := by
    rw [Feed.loop_eq]
    apply rounds_of_inr
    rw [signRound, bind_of_ok (F.inType_run hb _), if_neg (by decide)]
    rfl
  have hdot : ¬ ch '-' = intab.termin := by decide
  rw [caseSign, bind_of_ok (putChar_room (by decide) _ _), bind_of_ok hget, labSign,
    if_neg fun hboth => absurd hboth.1 (by decide), if_neg (by decide), if_neg fun hboth => absurd hboth.1 (by decide),
    scanSigns, nil_append]
  refine (bind_of_ok hloop).trans ?_
  dsimp only
  have hput := putEnd_room (a := [toBYTE (ch '-')]) (by decide) { s with source := r }
  rw [bind_of_ok hput, bind_of_ok (F.inType_run hb _), if_neg fun hall => hdot hall.2.1, ← hexc]
  rfl

end

theorem Ends.point (F : Feed R.toSource eof) (h : Ends eof rest) : rest.headD eof ≠ intab.dpoint :=
  h.cases (P := (· ≠ intab.dpoint)) F.eof_cases (by decide) (by decide) fun c => by cases c <;> decide

theorem Ends.decimal (F : Feed R.toSource eof) (h : Ends eof rest) : Feed.EndsDecimal eof rest where
  type := h.cases (P := (inTypeOf · ≠ some .digit)) F.eof_cases (by decide) (by decide) fun c => by cases c <;> decide
  underscore := h.cases (P := (· ≠ ch '_')) F.eof_cases (by decide) (by decide) fun c => by cases c <;> decide
  radix := h.cases (P := (· ≠ intab.radix)) F.eof_cases (by decide) (by decide) fun c => by cases c <;> decide
  point := fun hpoint => absurd hpoint (h.point F)

/-- The digits of a decimal, which is no longer than the buffer. -/
structure Decimal (ds : List Nat) : Prop where
  lt : ∀ d ∈ ds, d < 10
  ne : ds ≠ []
  room : ds.length < maxStrLen

theorem storedDigits_digits {ds : List Nat} (h : ∀ d ∈ ds, d < 10) : storedDigits (ds.map digitByte) = ds.map digitByte := by
  apply filter_eq_self.2
  intro b hb
  obtain ⟨d, hd, rfl⟩ := mem_map.1 hb
  simpa using (digitOf_digitByte d (h d hd)).2.1

theorem calls_decimal (hf : Coded f) (hnul : ∀ c, 0 < c → R.atNul c = false) (fl : Flags) {ds : List Nat} (hds : Decimal ds)
    (hrest : Ends eof rest) (h : F.Ready ((ds.map digitByte).map f ++ rest) s) :
    Calls F fl s (.digit (ds.map digitByte)) rest := by
  obtain ⟨hdigits, hfirst, -, -, -⟩ := exists_decimal hds.lt hds.ne
  have hstored := storedDigits_digits hds.lt
  have hchars : (ds.map digitByte).map f = fileChars (ds.map digitByte) :=
    map_congr_left fun b hb => hf.of_lt (Numeral.digit_ascii hdigits b hb)
  have hlen : (ds.map digitByte).length < maxStrLen := by
    rw [length_map]
    exact hds.room
  obtain ⟨b, t, d, hbytes, hb, hd⟩ := Numeral.exists_digit_cons hdigits hfirst
  rw [hchars] at h
  rw [hbytes] at hdigits hstored h hlen ⊢
  have hbyte := digitOf_ten hb hd
  refine calls_of_pass (hnul _ (by decide)) ?_ h
  intro s hat hexc
  have hbase : b = 48 → baseOf ((Feed.before t rest).headD eof) = none := fun _ =>
    Feed.baseOf_next hdigits fun _ =>
      hrest.cases (P := (baseOf · = none)) F.eof_cases (by decide) (by decide) fun c => by cases c <;> decide
  obtain ⟨a, t', c', r, hsplit, ha, hshort, hback, hcur, hcase⟩ := F.caseDigit_number (t := t) ⟨rfl, hat⟩ hbase
  have ht' : IsDigits 10 t' := fun x hx => hdigits x (hsplit ▸ mem_append_right a hx)
  have hends := hrest.decimal F
  have hsum : a ++ storedDigits t' = b :: t := (Feed.storedDigits_append ha hsplit).trans hstored
  have hroom : a.length + (storedDigits t').length ≤ maxStrLen := by
    rw [← length_append, hsum]
    exact Nat.le_of_lt hlen
  obtain ⟨hfit, -⟩ := F.scanDigits_run (s := { s with source := r }) rest hends.type hends.underscore ht'
    (le_trans hshort (by decide)) hback hcur
  obtain ⟨r', hr', -, hrun⟩ := (hfit hroom).2 (hrest.name F).type
  refine ⟨r', hr', ?_⟩
  rw [F.scanToken_digit fl (hnul _ (by omega)) (inTypeOf_digit hb hd) s]
  refine hcase.trans ?_
  rw [scanNumber, bind_of_ok hrun]
  dsimp only
  rw [if_neg hends.radix, if_neg (hrest.point F), hsum, Feed.endDigits_run hlen, hexc]

end

/-! ## Neighbours -/

/-- What may follow a piece: two bars are one token, and a name or a number ends at a punctuation. -/
def Follows : Piece → Piece → Prop
  | .punct c, q => c = .bar → q ≠ .punct .bar
  | _, q => ∃ c, q = .punct c

/-- Neighbours are apart, and the notation does not end with a bar. -/
structure Apart (ps : List Piece) : Prop where
  chain : ps.IsChain Follows
  last : ps.getLast? ≠ some (.punct .bar)

def StartsTerm (ps : List Piece) : Prop := ∃ p qs, ps = p :: qs ∧ p ≠ .punct .bar

def StartsPunct (ps : List Piece) : Prop := ∃ c qs, ps = .punct c :: qs

section
variable {ps qs : List Piece}

theorem StartsTerm.append (h : StartsTerm ps) (qs : List Piece) : StartsTerm (ps ++ qs) := by
  obtain ⟨p, ps', rfl, hp⟩ := h
  exact ⟨p, ps' ++ qs, rfl, hp⟩

theorem Apart.append (hps : Apart ps) (hqs : Apart qs) (hstart : StartsPunct qs) : Apart (ps ++ qs) := by
  obtain ⟨c, qs', rfl⟩ := hstart
  constructor
  · refine isChain_append.2 ⟨hps.chain, hqs.chain, fun p hp q hq => ?_⟩
    cases hq
    cases p with
    | int n => exact ⟨c, rfl⟩
    | name s => exact ⟨c, rfl⟩
    | punct c' =>
      rintro rfl
      exact absurd hp hps.last
  · rw [List.getLast?_append_cons]
    exact hqs.last

theorem Apart.cons (c : Punct) (hps : Apart ps) (hstart : StartsTerm ps) : Apart (.punct c :: ps) := by
  obtain ⟨p, ps', rfl, hp⟩ := hstart
  constructor
  · exact isChain_cons_cons.2 ⟨fun _ => hp, hps.chain⟩
  · rw [List.getLast?_cons_cons]
    exact hps.last

theorem apart_singleton {p : Piece} (hp : p ≠ .punct .bar) : Apart [p] := by
  refine ⟨isChain_singleton p, fun h => hp ?_⟩
  rw [List.getLast?_singleton] at h
  exact Option.some.inj h

theorem apart_barred (hps : Apart ps) (hstart : StartsTerm ps) : Apart (BpTerm.barred ps) :=
  (hps.append (apart_singleton (by decide)) ⟨.rbrack, [], rfl⟩).cons .bar (hstart.append _)

theorem apart_separated {pss : List (List Piece)} (hne : pss ≠ []) (h : ∀ ps ∈ pss, Apart ps ∧ StartsTerm ps) :
    Apart (separated pss) ∧ StartsTerm (separated pss) := by
  induction pss with
  | nil => exact absurd rfl hne
  | cons ps pss ih =>
    obtain ⟨⟨hps, hstart⟩, hpss⟩ := forall_mem_cons.1 h
    cases pss with
    | nil => exact ⟨hps, hstart⟩
    | cons qs pss =>
      obtain ⟨hqs, hqstart⟩ := ih (cons_ne_nil qs pss) hpss
      exact ⟨hps.append (hqs.cons .comma hqstart) ⟨.comma, _, rfl⟩, hstart.append _⟩

end

namespace BpTerm

theorem apart_parts (t : BpTerm) : (Apart t.pieces ∧ StartsTerm t.pieces) ∧ Apart t.rest ∧ StartsPunct t.rest := by
  have hbarred : ∀ {ps : List Piece}, Apart ps → StartsTerm ps → Apart (barred ps) ∧ StartsPunct (barred ps) :=
    fun hps hstart => ⟨apart_barred hps hstart, .bar, _, rfl⟩
  induction t with
  | int n =>
    have hps := apart_singleton (p := .int n) nofun
    have hstart : StartsTerm [.int n] := ⟨_, [], rfl, nofun⟩
    exact ⟨⟨hps, hstart⟩, hbarred hps hstart⟩
  | atom sym =>
    have hps := apart_singleton (p := .name sym.name) nofun
    have hstart : StartsTerm [.name sym.name] := ⟨_, [], rfl, nofun⟩
    refine ⟨⟨hps, hstart⟩, ?_⟩
    cases hnil : (atom sym).isNil with
    | true =>
      rw [rest_nil hnil]
      exact ⟨apart_singleton (by decide), .rbrack, [], rfl⟩
    | false =>
      rw [rest_tail hnil rfl]
      exact hbarred hps hstart
  | list car cdr ihcar ihcdr =>
    have happ := ihcar.1.1.append ihcdr.2.1 ihcdr.2.2
    have hstart := ihcar.1.2.append cdr.rest
    exact ⟨⟨happ.cons .lbrack hstart, _, _, rfl, by decide⟩, happ.cons .comma hstart, .comma, _, rfl⟩
  | str sym args ih =>
    have hne : (List.ofFn fun i => (args i).pieces) ≠ [] := by
      rw [Ne, ofFn_eq_nil_iff]
      exact Nat.ne_of_gt sym.arity_pos
    obtain ⟨hsep, hstart⟩ := apart_separated hne (by
      intro ps hps
      obtain ⟨i, rfl⟩ := (mem_ofFn' _ _).1 hps
      exact (ih i).1)
    have hargs := (hsep.append (apart_singleton (p := .punct .rpar) (by decide)) ⟨.rpar, [], rfl⟩).cons .lpar
      (hstart.append _)
    have hps := (apart_singleton (p := .name sym.name) nofun).append hargs ⟨.lpar, _, rfl⟩
    have hname : StartsTerm (str sym args).pieces := ⟨_, _, rfl, nofun⟩
    exact ⟨⟨hps, hname⟩, hbarred hps hname⟩

end BpTerm

/-! ## Calls on pieces -/

theorem decimal_int32 (n : Int) : Decimal (decimalDigits (toInt32 n).natAbs) := by
  have hle : (toInt32 n).natAbs < 10 ^ 10 := by
    have h1 := Int.bmod_lt (x := n) (m := 2 ^ 32) (by decide)
    have h2 := Int.le_bmod (x := n) (m := 2 ^ 32) (by decide)
    unfold toInt32
    omega
  refine ⟨decimalDigits_lt, ?_, ?_⟩
  · unfold decimalDigits
    split_ifs with h0
    · exact cons_ne_nil 0 []
    · rw [Ne, reverse_eq_nil_iff, Nat.digits_eq_nil_iff_eq_zero]
      exact h0
  · refine lt_of_le_of_lt ?_ (show 10 < maxStrLen by decide)
    unfold decimalDigits
    split_ifs with h0
    · decide
    · rw [length_reverse]
      exact (Nat.digits_length_le_iff (by decide) _).2 hle

namespace Piece

def Fits : Piece → Prop
  | name s => NameFits 0 s
  | _ => True

theorem not_nul {s : List Char} (h : (name s).IsClean) : '\u0000' ∉ s := by
  intro hmem
  have hzero : (0 : UInt8) ∈ validText s := mem_flatMap.2 ⟨_, hmem, by decide⟩
  exact (h 0 hzero).2 rfl

theorem text_cons (p : Piece) : ∃ b t, p.text = b :: t ∧ b.toNat < 128 ∧ (b = 124 → p = punct .bar) := by
  cases p with
  | int n =>
    obtain ⟨hlt, hne, -⟩ := decimal_int32 n
    have hdigit : ∀ d < 10, (digitByte d).toNat < 128 ∧ digitByte d ≠ 124 := by decide +kernel
    show ∃ b t, formatD (toInt32 n) = b :: t ∧ _
    unfold formatD
    split_ifs
    · exact ⟨45, _, rfl, by decide, fun h => absurd h (by decide)⟩
    · cases hds : decimalDigits (toInt32 n).natAbs with
      | nil => exact absurd hds hne
      | cons d ds =>
        obtain ⟨hascii, hbar⟩ := hdigit d (hlt d (hds ▸ mem_cons_self))
        exact ⟨digitByte d, _, rfl, hascii, fun h => absurd h hbar⟩
  | name s =>
    show ∃ b t, qname (validText s) = b :: t ∧ _
    cases hneed : singleQuoteNeeded (validText s) with
    | true =>
      rw [qname_quoted hneed]
      exact ⟨39, _, rfl, by decide, fun h => absurd h (by decide)⟩
    | false =>
      rw [qname_plain hneed]
      obtain ⟨b, t, htext, hb, -⟩ := singleQuoteNeeded_eq_false hneed
      refine ⟨b, t, htext, (inTypeOf_lower hb).1, ?_⟩
      rintro rfl
      exact absurd hb (by decide)
  | punct c => exact ⟨c.byte, [], rfl, by cases c <;> decide, fun h => by cases c <;> first | rfl | cases h⟩

end Piece

section
variable {σ : Type} {R : Reader σ} {eof : Int} {F : Feed R.toSource eof} {f : UInt8 → Int} {fl : Flags} {s : ScanState σ}
  {rest rest' : List Int} {tok : Token} {toks toks' : List Token}

/-- Calls from `s` on give the tokens, and leave `rest`. -/
def Yields (F : Feed R.toSource eof) (fl : Flags) (s : ScanState σ) (toks : List Token) (rest : List Int) : Prop :=
  ∃ s', F.Ready rest s' ∧ ∀ k, reading R fl (toks.length + k) s = toks.map (fun t => (0, .token t)) ++ reading R fl k s'

theorem Calls.yields (htok : tok ≠ .eofch) (h : Calls F fl s tok rest) : Yields F fl s [tok] rest := by
  obtain ⟨s', hready, hexc, hcall⟩ := h.ready
  refine ⟨s', hready, fun k => ?_⟩
  rw [length_singleton, Nat.add_comm, reading_cons hexc hcall, if_neg htok]
  rfl

theorem Yields.append (h : Yields F fl s toks rest) (h' : ∀ s, F.Ready rest s → Yields F fl s toks' rest') :
    Yields F fl s (toks ++ toks') rest' := by
  obtain ⟨s1, hready, hrun⟩ := h
  obtain ⟨s2, hready', hrun'⟩ := h' s1 hready
  refine ⟨s2, hready', fun k => ?_⟩
  rw [length_append, Nat.add_assoc, hrun, hrun', List.map_append, append_assoc]

def Next (eof : Int) (rest : List Int) : Piece → Prop
  | .punct c => c = .bar → rest.headD eof ≠ ch '|'
  | _ => Ends eof rest

theorem yields_int (hf : Coded f) (hnul : ∀ c, 0 < c → R.atNul c = false) (n : Int) (hrest : Ends eof rest)
    (h : F.Ready ((Piece.int n).text.map f ++ rest) s) : Yields F fl s (Piece.int n).wrap.tokens rest := by
  have hds := decimal_int32 n
  have hdigits : ∀ s, F.Ready (((decimalDigits (toInt32 n).natAbs).map digitByte).map f ++ rest) s →
      Yields F fl s [.digit ((decimalDigits (toInt32 n).natAbs).map digitByte)] rest :=
    fun s hs => (calls_decimal hf hnul fl hds hrest hs).yields nofun
  change F.Ready ((formatD (toInt32 n)).map f ++ rest) s at h
  show Yields F fl s ((if toInt32 n < 0 then [.lower [45]] else []) ++ [.digit _]) rest
  unfold formatD at h
  split_ifs with hneg
  · rw [if_pos hneg, List.map_append, append_assoc] at h
    obtain ⟨b, t, d, hbytes, hb, hd⟩ : ∃ b t d, (decimalDigits (toInt32 n).natAbs).map digitByte = b :: t ∧
        digitOf b = some d ∧ d < 10 := by
      obtain ⟨hten, hfirst, -⟩ := exists_decimal hds.lt hds.ne
      exact Numeral.exists_digit_cons hten hfirst
    have hsign : Calls F fl s (.lower [45]) (((decimalDigits (toInt32 n).natAbs).map digitByte).map f ++ rest) := by
      rw [hbytes] at h ⊢
      exact calls_minus hf hnul fl (inTypeOf_digit hb hd) (digitOf_lt hb).1 h
    exact (hsign.yields (by decide)).append hdigits
  · rw [if_neg hneg, nil_append] at h
    exact hdigits s h

theorem yields_piece (fl : Flags) (hQ : QuotedChars F f) (hf : Coded f) (hnul : ∀ c, 0 < c → R.atNul c = false)
    {p : Piece} (hclean : p.IsClean) (hfits : p.Fits) (hnext : Next eof rest p) (h : F.Ready (p.text.map f ++ rest) s) :
    Yields F fl s p.wrap.tokens rest := by
  cases p with
  | int n => exact yields_int hf hnul n hnext h
  | name name =>
    exact (calls_qname hQ hf hnul fl (Piece.not_nul hclean) hfits (Ends.name F hnext) h).yields nofun
  | punct c => exact (calls_punct hf hnul fl c hnext h).yields nofun

theorem next_cons (hf : Coded f) {p q : Piece} {ps : List Piece} (h : Follows p q) :
    Next eof ((textOf (q :: ps)).map f) p := by
  obtain ⟨b, t, htext, hascii, hbar⟩ := q.text_cons
  have hhead : ((textOf (q :: ps)).map f).headD eof = b.toNat := by
    rw [textOf, flatMap_cons, htext, cons_append, map_cons, headD_cons, hf.of_lt hascii]
  have hpunct : (∃ c, q = .punct c) → Ends eof ((textOf (q :: ps)).map f) := by
    rintro ⟨c, rfl⟩
    obtain ⟨rfl, -⟩ := cons_eq_cons.1 htext
    exact .inr ⟨c, hhead⟩
  cases p with
  | int n => exact hpunct h
  | name s => exact hpunct h
  | punct c =>
    intro hc heq
    rw [hhead] at heq
    exact h hc (hbar (UInt8.toNat_inj.1 (Int.ofNat_inj.1 heq)))

theorem next_nil (F : Feed R.toSource eof) (p : Piece) : Next eof [] p := by
  cases p with
  | int n => exact .inl rfl
  | name s => exact .inl rfl
  | punct c => exact fun _ => eof_ne F.eof_cases (by decide)

theorem next_chain (F : Feed R.toSource eof) (hf : Coded f) {p : Piece} {ps : List Piece}
    (hchain : (p :: ps).IsChain Follows) :
    Next eof ((textOf ps).map f) p := by
  cases ps with
  | nil => exact next_nil F p
  | cons q ps => exact next_cons hf (isChain_cons_cons.1 hchain).1

theorem yields_pieces (fl : Flags) (hQ : QuotedChars F f) (hf : Coded f) (hnul : ∀ c, 0 < c → R.atNul c = false)
    {ps : List Piece}
    (hchain : ps.IsChain Follows) (hclean : ∀ p ∈ ps, p.IsClean) (hfits : ∀ p ∈ ps, p.Fits)
    (h : F.Ready ((textOf ps).map f) s) : Yields F fl s ((ps.map Piece.wrap).flatMap Piece.tokens) [] := by
  induction ps generalizing s with
  | nil => exact ⟨s, h, fun k => by rw [map_nil, flatMap_nil, length_nil, Nat.zero_add]; rfl⟩
  | cons p ps ih =>
    obtain ⟨hp, hps⟩ := forall_mem_cons.1 hclean
    obtain ⟨hpfits, hpsfits⟩ := forall_mem_cons.1 hfits
    rw [textOf, flatMap_cons, List.map_append] at h
    rw [map_cons, flatMap_cons]
    exact (yields_piece fl hQ hf hnul hp hpfits (next_chain F hf hchain) h).append fun s hs => ih hchain.tail hps hpsfits hs

end

/-! ## The reader -/

theorem takeTokens_append {toks : List Token} (h : ∀ t ∈ toks, t ≠ .endcl) (l : List Outcome) :
    takeTokens (toks.map .token ++ l) = (takeTokens l).map (toks ++ ·) := by
  induction toks with
  | nil =>
    rw [map_nil, nil_append]
    exact Option.map_id'.symm
  | cons t toks ih =>
    obtain ⟨ht, htoks⟩ := forall_mem_cons.1 h
    rw [map_cons, cons_append, takeTokens, if_neg ht, ih htoks, Option.map_map]
    rfl

theorem Piece.tokens_ne (p : Piece) : ∀ t ∈ p.tokens, t ≠ .endcl := by
  cases p with
  | int n =>
    intro t ht
    unfold tokens at ht
    rcases mem_append.1 ht with ht | ht
    · split_ifs at ht
      · rw [mem_singleton.1 ht]
        decide
      · cases ht
    · rw [mem_singleton.1 ht]
      nofun
  | name s =>
    intro t ht
    rw [mem_singleton.1 ht]
    nofun
  | punct c =>
    intro t ht
    rw [mem_singleton.1 ht]
    nofun

theorem Piece.length_tokens_le (p : Piece) : p.wrap.tokens.length ≤ p.text.length := by
  have hpos : 1 ≤ p.text.length := by
    obtain ⟨b, t, htext, -⟩ := p.text_cons
    rw [htext]
    exact Nat.succ_pos _
  cases p with
  | int n =>
    have hne := length_pos_iff.2 (decimal_int32 n).ne
    show ((if toInt32 n < 0 then [Token.lower [45]] else []) ++ [Token.digit _]).length ≤ (formatD (toInt32 n)).length
    unfold formatD
    split_ifs
    · simp only [length_append, length_singleton, length_map]
      omega
    · simp only [nil_append, length_singleton, length_map]
      omega
  | name s => exact hpos
  | punct c => exact hpos

theorem takeTokens_outcomes {σ : Type} {r : Call σ} {rest : ScanState σ → List (Nat × Outcome)}
    (h : ∀ tok s', r.result = .ok (some tok, s') → s'.bpException ≠ none) :
    takeTokens ((r.outcomes rest).map Prod.snd) = none := by
  cases hresult : r.result with
  | error e =>
    rw [Call.outcomes_trap hresult]
    rfl
  | ok x =>
    obtain ⟨o, s'⟩ := x
    cases o with
    | none =>
      rw [Call.outcomes_error hresult]
      rfl
    | some tok =>
      rw [Call.outcomes_raised hresult (Option.isSome_iff_ne_none.2 (h tok s' hresult))]
      rfl

section
variable {σ : Type} {R : Reader σ} {eof : Int} {F : Feed R.toSource eof} {f : UInt8 → Int} {fl : Flags} {s : ScanState σ}
  {ps : List Piece}

theorem reading_long (fl : Flags) (h : QuietReader R eof) (hQ : QuotedChars F f) (hf : Coded f)
    (hnul : ∀ c, 0 < c → R.atNul c = false) (hchain : ps.IsChain Follows) (hclean : ∀ p ∈ ps, p.IsClean)
    (hlong : ∃ p ∈ ps, ¬ p.Fits)
    (hready : F.Ready ((textOf ps).map f) s) :
    ∃ n ≤ (textOf ps).length, ∀ k, takeTokens ((reading R fl (n + (k + 1)) s).map Prod.snd) = none := by
  induction ps generalizing s with
  | nil =>
    obtain ⟨p, hp, -⟩ := hlong
    cases hp
  | cons p ps ih =>
    obtain ⟨hp, hps⟩ := forall_mem_cons.1 hclean
    have hnext := next_chain F hf hchain
    rw [textOf, flatMap_cons, List.map_append] at hready
    by_cases hfits : p.Fits
    · obtain ⟨s', hready', hrun⟩ := yields_piece fl hQ hf hnul hp hfits hnext hready
      obtain ⟨q, hq, hqlong⟩ := hlong
      have hmem : q ∈ ps := (mem_cons.1 hq).resolve_left fun heq => hqlong (heq ▸ hfits)
      obtain ⟨n, hn, hnone⟩ := ih hchain.tail hps ⟨q, hmem, hqlong⟩ hready'
      have hle := p.length_tokens_le
      refine ⟨p.wrap.tokens.length + n, ?_, fun k => ?_⟩
      · rw [textOf, flatMap_cons, length_append]
        exact Nat.add_le_add hle hn
      · rw [Nat.add_assoc, hrun, List.map_append, map_map]
        exact (takeTokens_append p.wrap.tokens_ne _).trans (by rw [hnone]; rfl)
    · refine ⟨0, Nat.zero_le _, fun k => ?_⟩
      rw [Nat.zero_add, reading]
      cases p with
      | int n => exact absurd trivial hfits
      | punct c => exact absurd trivial hfits
      | name name =>
        exact takeTokens_outcomes fun tok s' hcall =>
          call_long h hQ hf hnul fl (Piece.not_nul hp) hfits (Ends.name F hnext) hready hcall

end

section
variable {parse : List Token → Option BpTerm} {fl : Flags} {ps : List Piece}

theorem atNul_string (c : Int) (h : 0 < c) : stringReader.atNul c = false := decide_eq_false (ne_of_gt h)

theorem length_tokens_textOf (ps : List Piece) :
    ((ps.map Piece.wrap).flatMap Piece.tokens).length ≤ (textOf ps).length := by
  induction ps with
  | nil => exact Nat.le_refl 0
  | cons p ps ih =>
    rw [map_cons, flatMap_cons, textOf, flatMap_cons, length_append, length_append]
    exact Nat.add_le_add p.length_tokens_le ih

theorem readText_pieces (hchain : ps.IsChain Follows) (hclean : ∀ p ∈ ps, p.IsClean) (hfits : ∀ p ∈ ps, p.Fits) :
    readText parse fl (textOf ps) = parse ((ps.map Piece.wrap).flatMap Piece.tokens) := by
  obtain ⟨s', hready, hrun⟩ := yields_pieces fl quotedChars_string coded_string atNul_string hchain hclean hfits
    (ready_stringStart (textOf ps))
  have hlen := length_tokens_textOf ps
  obtain ⟨k, hk⟩ := Nat.exists_eq_add_of_le hlen
  have hne : ∀ t ∈ (ps.map Piece.wrap).flatMap Piece.tokens, t ≠ .endcl := by
    intro t ht
    obtain ⟨p, -, hp⟩ := mem_flatMap.1 ht
    exact p.tokens_ne t hp
  have hend : takeTokens ((reading stringReader fl (k + 1) s').map Prod.snd) = some [] := by
    rw [reading_string_eof fl hready, map_replicate]
    rfl
  rw [readText, stringReading, hk, Nat.add_assoc, hrun, List.map_append, map_map]
  have htake := takeTokens_append hne ((reading stringReader fl (k + 1) s').map Prod.snd)
  rw [hend, Option.map_some, append_nil] at htake
  exact congrArg (·.bind parse) htake

theorem readText_long (hchain : ps.IsChain Follows) (hclean : ∀ p ∈ ps, p.IsClean) (hlong : ∃ p ∈ ps, ¬ p.Fits) :
    readText parse fl (textOf ps) = none := by
  obtain ⟨n, hn, hnone⟩ := reading_long fl quiet_stringReader quotedChars_string coded_string atNul_string hchain
    hclean hlong (ready_stringStart (textOf ps))
  obtain ⟨k, hk⟩ := Nat.exists_eq_add_of_le hn
  rw [readText, stringReading, hk, Nat.add_assoc, hnone]
  rfl

end

/-! ## Numbers in 32 bits -/

theorem toInt32_eq_iff (n : Int) : toInt32 n = n ↔ -2 ^ 31 ≤ n ∧ n < 2 ^ 31 := by
  constructor
  · intro h
    have h1 := Int.bmod_lt (x := n) (m := 2 ^ 32) (by decide)
    have h2 := Int.le_bmod (x := n) (m := 2 ^ 32) (by decide)
    unfold toInt32 at h
    omega
  · rintro ⟨hl, hu⟩
    exact Int.bmod_eq_of_le (by omega) (by omega)

theorem map_separated (g : Piece → Piece) (hg : g (.punct .comma) = .punct .comma) (pss : List (List Piece)) :
    (separated pss).map g = separated (pss.map (List.map g)) := by
  induction pss with
  | nil => rfl
  | cons ps pss ih =>
    cases pss with
    | nil => rfl
    | cons qs pss =>
      rw [separated, List.map_append, map_cons, hg, ih]
      rfl

namespace BpTerm

theorem parts_wrap (t : BpTerm) : t.wrap.pieces = t.pieces.map Piece.wrap ∧ t.wrap.rest = t.rest.map Piece.wrap := by
  induction t with
  | int n => exact ⟨rfl, rfl⟩
  | atom sym =>
    refine ⟨rfl, ?_⟩
    cases hnil : (atom sym).isNil with
    | true =>
      rw [rest_nil hnil, wrap, rest_nil hnil]
      rfl
    | false =>
      rw [rest_tail hnil rfl, wrap, rest_tail hnil rfl]
      rfl
  | list car cdr ihcar ihcdr =>
    have happ : car.wrap.pieces ++ cdr.wrap.rest = (car.pieces ++ cdr.rest).map Piece.wrap := by
      rw [List.map_append, ihcar.1, ihcdr.2]
    constructor
    · rw [wrap, pieces_list, pieces_list, happ]
      rfl
    · rw [wrap, rest_list, rest_list, happ]
      rfl
  | str sym args ih =>
    have hargs : separated (List.ofFn fun i => (args i).wrap.pieces) =
        (separated (List.ofFn fun i => (args i).pieces)).map Piece.wrap := by
      rw [map_separated Piece.wrap rfl, map_ofFn]
      congr 2
      funext i
      exact (ih i).1
    have hps : (str sym args).wrap.pieces = (str sym args).pieces.map Piece.wrap := by
      rw [wrap, pieces_str, pieces_str, hargs, map_cons, map_cons, List.map_append]
      rfl
    refine ⟨hps, ?_⟩
    rw [wrap] at hps ⊢
    rw [rest_tail rfl rfl, rest_tail rfl rfl, hps, barred, barred, map_cons, List.map_append]
    rfl

theorem mem_separated {pss : List (List Piece)} {ps : List Piece} (h : ps ∈ pss) : ps ⊆ separated pss := by
  induction pss with
  | nil => cases h
  | cons qs pss ih =>
    cases pss with
    | nil =>
      rw [mem_singleton.1 h]
      exact List.Subset.refl qs
    | cons rs pss =>
      rcases mem_cons.1 h with rfl | h
      · exact subset_append_left _ _
      · exact fun p hp => mem_append_right _ (mem_cons_of_mem _ (ih h hp))

theorem int_mem_rest {t : BpTerm} {n : Int} (h : .int n ∈ t.pieces) : .int n ∈ t.rest := by
  cases hlist : t.isList with
  | true =>
    cases t with
    | list car cdr =>
      rw [pieces_list] at h
      exact mem_cons_of_mem _ ((mem_cons.1 h).resolve_left nofun)
    | int n => cases hlist
    | atom sym => cases hlist
    | str sym args => cases hlist
  | false =>
    cases hnil : t.isNil with
    | true =>
      cases t with
      | atom sym => exact absurd (mem_singleton.1 h) nofun
      | int n => cases hnil
      | list car cdr => cases hnil
      | str sym args => cases hnil
    | false =>
      rw [rest_tail hnil hlist]
      exact mem_cons_of_mem _ (mem_append_left _ h)

theorem wrap_eq {t : BpTerm} (h : ∀ n, .int n ∈ t.pieces → toInt32 n = n) : t.wrap = t := by
  induction t with
  | int n => rw [wrap, h n (mem_singleton.2 rfl)]
  | atom sym => rfl
  | list car cdr ihcar ihcdr =>
    rw [pieces_list] at h
    have hcar := ihcar fun n hn => h n (mem_cons_of_mem _ (mem_append_left _ hn))
    have hcdr := ihcdr fun n hn => h n (mem_cons_of_mem _ (mem_append_right _ (int_mem_rest hn)))
    rw [wrap, hcar, hcdr]
  | str sym args ih =>
    rw [wrap]
    congr 1
    funext i
    apply ih i
    intro n hn
    rw [pieces_str] at h
    have hmem : (args i).pieces ∈ List.ofFn fun i => (args i).pieces := (mem_ofFn' _ _).2 ⟨i, rfl⟩
    exact h n (mem_cons_of_mem _ (mem_cons_of_mem _ (mem_append_left _ (mem_separated hmem hn))))

theorem wrap_eq_iff (t : BpTerm) : t.wrap = t ↔ ∀ n, .int n ∈ t.pieces → -2 ^ 31 ≤ n ∧ n < 2 ^ 31 := by
  constructor
  · intro h n hn
    have hmap := t.parts_wrap.1
    rw [h] at hmap
    have hself := map_eq_map_iff.1 (hmap.symm.trans (map_id _).symm) (.int n) hn
    rw [← toInt32_eq_iff]
    injection hself
  · exact fun h => wrap_eq fun n hn => (toInt32_eq_iff n).2 (h n hn)

end BpTerm

/-! ## Terms -/

/-- The counter is the length of the text after every piece, nothing is read or written outside the buffer, and the string
is read back. -/
structure Meets (malloc : Malloc) (parse : List Token → Option BpTerm) (fl : Flags) (bag : Option BpStrBag) (t : BpTerm) :
    Prop where
  counted : Counts malloc (startBag malloc bag) t.pieces
  readBack : ∃ bag', bpTerm2String malloc bag t = some bag' ∧ 0 ∈ bag'.buf ∧ readText parse fl (cString bag'.buf) = some t

/-- No name needs a backslash or is too long for the tokenizer, the numbers have 32 bits, and a new buffer has room for the
first piece, or has a NUL. -/
structure Writable (malloc : Malloc) (bag : Option BpStrBag) (t : BpTerm) : Prop where
  clean : ∀ s, .name s ∈ t.pieces → Clean (validText s)
  fits : ∀ s, .name s ∈ t.pieces → NameFits 0 s
  int32 : ∀ n, .int n ∈ t.pieces → -2 ^ 31 ≤ n ∧ n < 2 ^ 31
  first : FirstFits (startBag malloc bag) t.pieces

section
variable {malloc : Malloc} {parse : List Token → Option BpTerm} {fl : Flags} {bag : Option BpStrBag} {t : BpTerm}

theorem isClean_pieces {ps : List Piece} (h : ∀ s, .name s ∈ ps → Clean (validText s)) : ∀ p ∈ ps, p.IsClean := by
  intro p hp
  cases p with
  | int n => exact Piece.isClean_int n
  | punct c => exact Piece.isClean_punct c
  | name s => exact h s hp

theorem fits_pieces {ps : List Piece} (h : ∀ s, .name s ∈ ps → NameFits 0 s) : ∀ p ∈ ps, p.Fits := by
  intro p hp
  cases p with
  | int n => exact trivial
  | punct c => exact trivial
  | name s => exact h s hp

theorem bpTerm2String_text (h : Counts malloc (startBag malloc bag) t.pieces) :
    ∃ bag', bpTerm2String malloc bag t = some bag' ∧ bag'.Holds (textOf t.pieces) := by
  obtain ⟨⟨-, p, ps, hps, -⟩, -⟩ := t.apart_parts
  obtain ⟨bag', hrun, hholds⟩ := complete_text rfl (hps ▸ cons_ne_nil p ps) h
  refine ⟨bag', ?_, hholds⟩
  rw [bpTerm2String, (auxTerm2StringTerm_eq malloc t).1]
  exact hrun

theorem meets_of_writable (hparse : parse t.tokens = some t) (h : Writable malloc bag t) : Meets malloc parse fl bag t := by
  have hclean := isClean_pieces h.clean
  have hcounts : Counts malloc (startBag malloc bag) t.pieces := (counts_iff rfl).2 ⟨hclean, h.first⟩
  obtain ⟨bag', hrun, hholds⟩ := bpTerm2String_text hcounts
  refine ⟨hcounts, bag', hrun, hholds.mem, ?_⟩
  rw [hholds.cString_eq, readText_pieces t.apart_parts.1.1.chain hclean (fits_pieces h.fits), ← t.parts_wrap.1,
    t.wrap_eq_iff.2 h.int32]
  exact hparse

theorem writable_of_meets (hparse : parse t.wrap.tokens = some t.wrap) (h : Meets malloc parse fl bag t) :
    Writable malloc bag t := by
  obtain ⟨hclean, hfirst⟩ := (counts_iff rfl).1 h.counted
  obtain ⟨bag', hrun, hholds⟩ := bpTerm2String_text h.counted
  obtain ⟨bag1, hrun', -, hread⟩ := h.readBack
  rw [hrun] at hrun'
  cases hrun'
  rw [hholds.cString_eq] at hread
  have hchain := t.apart_parts.1.1.chain
  have hfits : ∀ p ∈ t.pieces, p.Fits := by
    by_contra hlong
    push Not at hlong
    rw [readText_long hchain hclean hlong] at hread
    cases hread
  rw [readText_pieces hchain hclean hfits, ← t.parts_wrap.1] at hread
  have hwrap : t.wrap = t := Option.some.inj (hparse.symm.trans hread)
  exact ⟨fun s hs => hclean _ hs, fun s hs => hfits _ hs, t.wrap_eq_iff.1 hwrap, hfirst⟩

end

/-- The string of a term is counted, stays in the buffer and is read back when the term is writable, and only then. -/
theorem bpTerm2String_meets_iff (malloc : Malloc) (parse : List Token → Option BpTerm) (fl : Flags)
    (bag : Option BpStrBag) (t : BpTerm) (hparse : parse t.wrap.tokens = some t.wrap) :
    Meets malloc parse fl bag t ↔ Writable malloc bag t := by
  constructor
  · exact writable_of_meets hparse
  · intro h
    rw [t.wrap_eq_iff.2 h.int32] at hparse
    exact meets_of_writable hparse h

theorem bpTerm2String_meets_iff_list : let f : StrSym := ⟨⟨['f'], 2, by decide⟩, by decide, by decide⟩
    let t : BpTerm := .str f ![.int (-1), .list (.atom ⟨['a'], 0, by decide⟩) (.atom ⟨['B', ' ', 'c'], 0, by decide⟩)]
    Meets ⟨fun n => List.replicate n 0, fun _ => length_replicate⟩ (fun toks => if toks = t.tokens then some t else none)
      ⟨1, 0⟩ none t := by
  intro f t
  have hpieces : t.pieces = [.name ['f'], .punct .lpar, .int (-1), .punct .comma, .punct .lbrack, .name ['a'], .punct .bar,
      .name ['B', ' ', 'c'], .punct .rbrack, .punct .rpar] := rfl
  have hwrap : t.wrap = t := by
    apply BpTerm.wrap_eq
    intro n hn
    rw [hpieces] at hn
    simp only [mem_cons, Piece.int.injEq, reduceCtorEq, not_mem_nil, false_or, or_false] at hn
    rw [hn]
    decide
  have hname : ∀ s, .name s ∈ t.pieces → s = ['f'] ∨ s = ['a'] ∨ s = ['B', ' ', 'c'] := by
    intro s hs
    rw [hpieces] at hs
    simpa only [mem_cons, Piece.name.injEq, reduceCtorEq, not_mem_nil, false_or, or_false] using hs
  refine (bpTerm2String_meets_iff _ _ _ _ t ?_).2 ⟨fun s hs => ?_, fun s hs => ?_, t.wrap_eq_iff.1 hwrap, fun p hp => ?_⟩
  · rw [hwrap]
    exact if_pos rfl
  · rcases hname s hs with rfl | rfl | rfl <;> decide
  · rcases hname s hs with rfl | rfl | rfl <;> exact nameFits_qname (by decide) (by decide)
  · right
    exact mem_replicate.2 ⟨by decide, rfl⟩

/-- The atom `it's`. -/
theorem bpTerm2String_quote :
    ¬ ∀ (malloc : Malloc) (parse : List Token → Option BpTerm) (fl : Flags) (bag : Option BpStrBag) (t : BpTerm),
      parse t.wrap.tokens = some t.wrap → Meets malloc parse fl bag t := by
  intro h
  let t : BpTerm := .atom ⟨['i', 't', '\'', 's'], 0, by decide⟩
  have hmeets := h ⟨fun n => List.replicate n 0, fun _ => length_replicate⟩ (fun _ => some t) ⟨1, 0⟩ none t rfl
  have hclean := (writable_of_meets rfl hmeets).clean _ (mem_singleton.2 rfl) 39 (by decide)
  exact absurd hclean.1 (by decide)

end Picat
