import Picat.Token.BufferRuns
import Picat.Token.Utf8

/-!
# Names of atoms, written and read back

* `qname_roundTrip` : a text of a name is one token of both tokenizers.
-/

namespace Picat
open Simulation List

/-! ## The writer -/

/-- The characters of a name without quotes, after the first one. -/
def isNameByte (b : UInt8) : Bool := 48 ≤ b ∧ b ≤ 57 ∨ 65 ≤ b ∧ b ≤ 90 ∨ b = 95 ∨ 97 ≤ b ∧ b ≤ 122

/-- `single_quote_needed`, on a text with its length. -/
def singleQuoteNeeded : List UInt8 → Bool
  | [] => true
  | b :: name => if 97 ≤ b ∧ b ≤ 122 then name.any fun b => !isNameByte b else true

/-- The character that stands for `b` after a backslash: for the quote and the backslash, and for seven controls. -/
def escapeOf (b : UInt8) : Option UInt8 :=
  if b = 39 ∨ b = 92 then some b
  else if b = 7 then some 97
  else if b = 8 then some 98
  else if b = 13 then some 114
  else if b = 12 then some 102
  else if b = 9 then some 116
  else if b = 10 then some 110
  else if b = 11 then some 118
  else none

def quotedByte (b : UInt8) : List UInt8 :=
  match escapeOf b with
  | some e => [92, e]
  | none => [b]

/-- The loop of `bp_write_qname_to_bp_buf`, with the text so far; `none` is `quit`. -/
def writeQuoted (buf : List UInt8) : List UInt8 → Option (List UInt8)
  | [] => some buf
  | b :: name => if maxStrLen ≤ (buf ++ quotedByte b).length then none else writeQuoted (buf ++ quotedByte b) name

/-- `bp_write_qname_to_bp_buf`: the text in `bp_buf`. -/
def bpWriteQnameToBpBuf (name : List UInt8) : Option (List UInt8) :=
  if maxStrLen ≤ name.length then none
  else if singleQuoteNeeded name then do
    let buf ← writeQuoted [39] name
    some (buf ++ [39])
  else some name

def qname (name : List UInt8) : List UInt8 :=
  if singleQuoteNeeded name then 39 :: (name.flatMap quotedByte ++ [39]) else name

section
variable {b e : UInt8} {name : List UInt8}

theorem length_quotedByte (b : UInt8) : 1 ≤ (quotedByte b).length := by
  unfold quotedByte
  cases escapeOf b with
  | none => exact le_refl 1
  | some e => exact Nat.le_succ 1

theorem length_le_quoted (name : List UInt8) : name.length ≤ (name.flatMap quotedByte).length := by
  induction name with
  | nil => exact Nat.le_refl 0
  | cons b name ih =>
    have hb := length_quotedByte b
    rw [flatMap_cons, length_append, length_cons]
    omega

theorem writeQuoted_eq {buf : List UInt8} (h : (buf ++ name.flatMap quotedByte).length < maxStrLen) :
    writeQuoted buf name = some (buf ++ name.flatMap quotedByte) := by
  induction name generalizing buf with
  | nil => exact congrArg some (append_nil buf).symm
  | cons b name ih =>
    rw [flatMap_cons, ← append_assoc] at h ⊢
    have hlen := h
    rw [length_append] at hlen
    rw [writeQuoted, if_neg (by omega)]
    exact ih h

theorem qname_quoted (h : singleQuoteNeeded name = true) : qname name = 39 :: (name.flatMap quotedByte ++ [39]) := if_pos h

theorem qname_plain (h : singleQuoteNeeded name = false) : qname name = name := by
  unfold qname
  rw [h]
  exact if_neg Bool.false_ne_true

theorem bpWriteQnameToBpBuf_eq (h : (qname name).length < maxStrLen) : bpWriteQnameToBpBuf name = some (qname name) := by
  cases hquote : singleQuoteNeeded name with
  | true =>
    rw [qname_quoted hquote] at h ⊢
    have hle := length_le_quoted name
    rw [length_cons, length_append, length_singleton] at h
    have hbuf : ([39] ++ name.flatMap quotedByte).length < maxStrLen := by
      rw [length_append, length_singleton]
      omega
    rw [bpWriteQnameToBpBuf, if_neg (by omega), if_pos hquote, writeQuoted_eq hbuf]
    rfl
  | false =>
    rw [qname_plain hquote] at h ⊢
    rw [bpWriteQnameToBpBuf, if_neg (by omega), hquote]
    exact if_neg Bool.false_ne_true

theorem quotedByte_of_le (h : 128 ≤ b.toNat) : quotedByte b = [b] := by
  have hall : ∀ n < 256, 128 ≤ n → quotedByte (UInt8.ofNat n) = [UInt8.ofNat n] := by decide +kernel
  have hb := hall b.toNat b.toNat_lt h
  rwa [UInt8.ofNat_toNat] at hb

theorem quotedByte_of_escape (h : escapeOf b = some e) : quotedByte b = [92, e] := by
  unfold quotedByte
  rw [h]

theorem quotedByte_of_plain (h : escapeOf b = none) : quotedByte b = [b] := by
  unfold quotedByte
  rw [h]

theorem escape_spec (h : escapeOf b = some e) :
    escapeLetter e.toNat = some (b.toNat : Int) ∧ e.toNat < 128 ∧ e ≠ 0 ∧ e ≠ 10 ∧ e ≠ 13 := by
  unfold escapeOf at h
  split_ifs at h with h1 h2 h3 h4 h5 h6 h7 h8
  · rcases h1 with rfl | rfl <;> cases h <;> decide
  all_goals
    subst b
    cases h
    decide

theorem plain_spec (h : escapeOf b = none) : b ≠ 39 ∧ b ≠ 92 := by
  constructor
  · rintro rfl
    cases h
  · rintro rfl
    cases h

end

/-! ## Characters between quotes -/

section
variable {σ : Type} {src : Source σ} {s t t' : ScanState σ} {c d cp q : Int} {bs : List UInt8}

theorem readUtf8Once_plain (hget : src.getc s = .ok (c, t)) (h0 : 0 ≤ c) (hq : q ≠ -1) (hcq : c ≠ q) (hc : c ≠ backslash)
    (hchar : utf8Char src (fun b2 => b2 > 0) s = .ok (cp, t')) : readUtf8Once src q s = .ok (.inr cp, t') := by
  rw [utf8Char, bind_of_ok hget] at hchar
  rw [readUtf8Once, bind_of_ok hget, if_neg (not_lt.2 h0), if_neg hq, if_neg hcq, if_pos hc]
  split_ifs at hchar ⊢
  · exact map_of_ok hchar
  · cases hchar
    rfl

theorem readUtf8CharacterString_plain (hget : src.getc s = .ok (c, t)) (h0 : c ≠ 0) (hq : q ≠ -1) (hcq : c ≠ q)
    (hc : c ≠ backslash) : readUtf8CharacterString src q s = utf8Char src (fun b2 => b2 ≠ 0) s := by
  rw [utf8Char, bind_of_ok hget, readUtf8CharacterString, bind_of_ok hget, if_neg h0, if_neg hq, if_neg hcq, if_pos hc]

theorem letter_ne {e : UInt8} (h0 : e ≠ 0) (h10 : e ≠ 10) (h13 : e ≠ 13) :
    (e.toNat : Int) ≠ 0 ∧ (e.toNat : Int) ≠ newline ∧ (e.toNat : Int) ≠ carriageReturn := by
  have hne : ∀ k : UInt8, e ≠ k → (e.toNat : Int) ≠ k.toNat := fun k hk heq =>
    hk (UInt8.toNat_inj.1 (Int.ofNat_inj.1 heq))
  exact ⟨hne 0 h0, hne 10 h10, hne 13 h13⟩

section
variable {b e : UInt8} (hget : src.getc s = .ok (backslash, t)) (hget' : src.getc t = .ok ((e.toNat : Int), t'))
  (he : escapeOf b = some e)
include hget hget' he

theorem readUtf8Once_escape : readUtf8Once src singleQuote s = .ok (.inr b.toNat, t') := by
  obtain ⟨hletter, hlt, h0, h10, h13⟩ := escape_spec he
  obtain ⟨-, hne10, hne13⟩ := letter_ne h0 h10 h13
  have hescape : readEscape src t = .ok (some b.toNat, t') := by
    rw [readEscape, bind_of_ok hget', if_neg (by omega), if_neg hne13, if_neg hne10, hletter]
    rfl
  rw [readUtf8Once, bind_of_ok hget, if_neg (by decide), if_neg (by decide), if_neg (by decide),
    if_neg (not_not.2 rfl), bind_of_ok hescape]
  rfl

theorem readUtf8CharacterString_escape : readUtf8CharacterString src singleQuote s = .ok (b.toNat, t') := by
  obtain ⟨hletter, hlt, h0, h10, h13⟩ := escape_spec he
  obtain ⟨hne0, hne10, -⟩ := letter_ne h0 h10 h13
  rw [readUtf8CharacterString, bind_of_ok hget, if_neg (by decide), if_neg (by decide), if_neg (by decide),
    if_neg (not_not.2 rfl), readEscapeString, bind_of_ok hget', if_neg (not_or.2 ⟨hne10, hne0⟩), hletter]
  rfl

end

theorem closeQuoted_end (hget : src.getc s = .ok (c, t)) (hc : c ≠ q) :
    closeQuoted src q s = .ok (-1, { t with lastc := c }) := by
  rw [closeQuoted, bind_of_ok hget, if_neg hc]
  rfl

section
variable (hget : src.getc s = .ok (singleQuote, t)) (hget' : src.getc t = .ok (c, t')) (hc : c ≠ singleQuote)
include hget hget' hc

theorem readUtf8Once_close : readUtf8Once src singleQuote s = .ok (.inr (-1), { t' with lastc := c }) := by
  rw [readUtf8Once, bind_of_ok hget, if_neg (by decide), if_neg (by decide), if_pos rfl]
  exact map_of_ok (closeQuoted_end hget' hc)

theorem readUtf8CharacterString_close : readUtf8CharacterString src singleQuote s = .ok (-1, { t' with lastc := c }) := by
  rw [readUtf8CharacterString, bind_of_ok hget, if_neg (by decide), if_neg (by decide), if_pos rfl]
  exact closeQuoted_end hget' hc

end

theorem readUtf8Character_of_once (h : readUtf8Once src q s = .ok (.inr d, t)) :
    readUtf8Character src q s = .ok (d, t) := by
  rw [readUtf8Character, Feed.loop_eq]
  exact rounds_of_inr h

end

/-! ## The two sources -/

section
variable {σ : Type} {eof : Int} {f : UInt8 → Int} {s : ScanState σ} {cs : List Int} {bs : List UInt8}

theorem Coded.lowByte_eq (hf : Coded f) (b : UInt8) : lowByte (f b) = b.toNat := by
  have hb := b.toNat_lt
  unfold lowByte
  rcases hf b with h | ⟨-, h⟩ <;> rw [h] <;> omega

theorem gives_of_at {src : Source σ} (F : Feed src eof) (hf : Coded f) (h : F.At s.source (bs.map f ++ cs)) :
    ∃ r, F.At r cs ∧ Gives src s bs { s with source := r } := by
  induction bs generalizing s with
  | nil => exact ⟨s.source, h, rfl⟩
  | cons b bs ih =>
    obtain ⟨r, hr, -, hget⟩ := F.getc h
    obtain ⟨r', hr', hgives⟩ := ih (s := { s with source := r }) hr
    exact ⟨r', hr', f b, _, hget, hf.lowByte_eq b, hf.of_lt, hgives⟩

/-- What a reader gives for the characters between quotes, and for the quote that ends them. -/
structure QuotedChars {R : Reader σ} (F : Feed R.toSource eof) (f : UInt8 → Int) : Prop where
  plain : ∀ {s cs cp b bs}, Shape cp (b :: bs) → b ≠ 39 → b ≠ 92 → F.At s.source ((b :: bs).map f ++ cs) →
    ∃ r, F.At r cs ∧ R.readUtf8Character singleQuote s = .ok (cp, { s with source := r })
  escaped : ∀ {s cs b e}, escapeOf b = some e → F.At s.source ([92, e].map f ++ cs) →
    ∃ r, F.At r cs ∧ R.readUtf8Character singleQuote s = .ok (b.toNat, { s with source := r })
  close : ∀ {s cs}, cs.headD eof ≠ singleQuote → F.At s.source (f 39 :: cs) →
    ∃ r, F.At r cs.tail ∧ R.readUtf8Character singleQuote s = .ok (-1, ⟨r, cs.headD eof, s.bpException⟩)

theorem getc_cons {src : Source σ} (F : Feed src eof) {c : Int} (h : F.At s.source (c :: cs)) :
    ∃ r, F.At r cs ∧ src.getc s = .ok (c, { s with source := r }) := by
  obtain ⟨r, hr, -, hget⟩ := F.getc h
  exact ⟨r, hr, hget⟩

theorem toNat_ne {b k : UInt8} (h : b ≠ k) : (b.toNat : Int) ≠ k.toNat := fun heq =>
  h (UInt8.toNat_inj.1 (Int.ofNat_inj.1 heq))

theorem quotedChars_file : QuotedChars (R := fileReader) fileFeed fun b => (b.toNat : Int) := by
  constructor
  · intro s cs cp b bs hshape h39 h92 hat
    obtain ⟨r, hr, hgives⟩ := gives_of_at fileFeed coded_file hat
    obtain ⟨r1, -, hget⟩ := getc_cons fileFeed hat
    refine ⟨r, hr, readUtf8Character_of_once (readUtf8Once_plain hget (Int.natCast_nonneg _) (by decide) ?_ ?_ ?_)⟩
    · exact toNat_ne h39
    · exact toNat_ne h92
    · exact utf8Char_shape hshape hgives
  · intro s cs b e he hat
    obtain ⟨r1, hr1, hget⟩ := getc_cons fileFeed hat
    obtain ⟨r2, hr2, hget'⟩ := getc_cons (s := { s with source := r1 }) fileFeed hr1
    exact ⟨r2, hr2, readUtf8Character_of_once (readUtf8Once_escape hget hget' he)⟩
  · intro s cs hc hat
    obtain ⟨r1, hr1, hget⟩ := getc_cons fileFeed hat
    obtain ⟨r2, hr2, -, hget'⟩ := fileFeed.getc (s := { s with source := r1 }) hr1
    exact ⟨r2, hr2, readUtf8Character_of_once (readUtf8Once_close hget hget' hc)⟩

theorem quotedChars_string : QuotedChars (R := stringReader) stringFeed fun b => toCHAR b.toNat := by
  constructor
  · intro s cs cp b bs hshape h39 h92 hat
    obtain ⟨r, hr, hgives⟩ := gives_of_at stringFeed coded_string hat
    obtain ⟨r1, -, hget⟩ := getc_cons stringFeed hat
    obtain ⟨b', bs', heq, hb⟩ := hshape.cons
    obtain ⟨rfl, -⟩ := cons_eq_cons.1 heq
    have hne : ∀ k : UInt8, k.toNat < 128 → b ≠ k → toCHAR b.toNat ≠ k.toNat := fun k hk hk' h =>
      toNat_ne hk' ((coded_string.eq_iff (by omega) (by omega)).1 h)
    refine ⟨r, hr, (readUtf8CharacterString_plain hget (toCHAR_ne_zero hb) (by decide) ?_ ?_).trans
      (utf8Char_shape hshape hgives)⟩
    · exact hne 39 (by decide) h39
    · exact hne 92 (by decide) h92
  · intro s cs b e he hat
    have hascii : toCHAR e.toNat = e.toNat := toCHAR_of_lt (escape_spec he).2.1
    have hbackslash : toCHAR (92 : UInt8).toNat = backslash := by decide
    rw [map_cons, map_singleton, hascii, hbackslash] at hat
    obtain ⟨r1, hr1, hget⟩ := getc_cons stringFeed hat
    obtain ⟨r2, hr2, hget'⟩ := getc_cons (s := { s with source := r1 }) stringFeed hr1
    exact ⟨r2, hr2, readUtf8CharacterString_escape hget hget' he⟩
  · intro s cs hc hat
    have hquote : toCHAR (39 : UInt8).toNat = singleQuote := by decide
    rw [hquote] at hat
    obtain ⟨r1, hr1, hget⟩ := getc_cons stringFeed hat
    obtain ⟨r2, hr2, -, hget'⟩ := stringFeed.getc (s := { s with source := r1 }) hr1
    exact ⟨r2, hr2, readUtf8CharacterString_close hget hget' hc⟩

end

/-! ## Quoted names -/

theorem putEnd_room {σ : Type} {a : List UInt8} (h : a.length < maxStrLen) (s : ScanState σ) : putEnd a s = .ok ((), s) := by
  rw [putEnd, if_pos h]
  rfl

/-- The character and what follows it fit into `AtomStr` behind `n` bytes, with the NUL. -/
def NameFits : Nat → List Char → Prop
  | n, [] => n < maxStrLen
  | n, c :: cs => FitsAt n c.toNat ∧ NameFits (n + (String.utf8EncodeChar c).length) cs

theorem codepointBytes_char (c : Char) : codepointBytes c.toNat = String.utf8EncodeChar c := utf8Bytes_char c

theorem validText_cons (c : Char) (cs : List Char) : validText (c :: cs) = String.utf8EncodeChar c ++ validText cs := rfl

variable {n fuel : Nat}

theorem NameFits.length_lt {n : Nat} {cs : List Char} (h : NameFits n cs) : n + (validText cs).length < maxStrLen := by
  induction cs generalizing n with
  | nil => exact h
  | cons c cs ih =>
    have hcs := ih h.2
    rw [validText_cons, length_append]
    omega

theorem Shape.ascii_or {cp : Int} {b : UInt8} {bs : List UInt8} (h : Shape cp (b :: bs)) :
    bs = [] ∧ cp = b.toNat ∨ ∀ x ∈ b :: bs, 128 ≤ x.toNat := by
  cases h with
  | one hb h0 => exact .inl ⟨rfl, rfl⟩
  | two hb h2 =>
    right
    simp only [forall_mem_cons, not_mem_nil, false_implies, implies_true, and_true]
    omega
  | three hb h2 h3 =>
    right
    simp only [forall_mem_cons, not_mem_nil, false_implies, implies_true, and_true]
    omega
  | four hb h2 h3 h4 =>
    right
    simp only [forall_mem_cons, not_mem_nil, false_implies, implies_true, and_true]
    omega

theorem flatMap_quotedByte {bs : List UInt8} (h : ∀ x ∈ bs, quotedByte x = [x]) : bs.flatMap quotedByte = bs := by
  induction bs with
  | nil => rfl
  | cons b bs ih =>
    rw [flatMap_cons, h b mem_cons_self, ih fun x hx => h x (mem_cons_of_mem b hx)]
    rfl

section
variable {σ : Type} {R : Reader σ} {eof : Int} {F : Feed R.toSource eof} {f : UInt8 → Int} (hQ : QuotedChars F f)
include hQ

theorem QuotedChars.read {c : Char} (hc : c ≠ '\u0000') {s : ScanState σ} {cs : List Int}
    (hat : F.At s.source (((String.utf8EncodeChar c).flatMap quotedByte).map f ++ cs)) :
    ∃ r, F.At r cs ∧ R.readUtf8Character singleQuote s = .ok (c.toNat, { s with source := r }) := by
  have hshape := shape_utf8Bytes (isCode_char hc).1 (isCode_char hc).2
  rw [utf8Bytes_char] at hshape
  obtain ⟨b, bs, hbs, -⟩ := hshape.cons
  rw [hbs] at hshape hat
  cases he : escapeOf b with
  | some e =>
    rcases hshape.ascii_or with ⟨rfl, hcp⟩ | hhigh
    · rw [flatMap_singleton, quotedByte_of_escape he] at hat
      rw [hcp]
      exact hQ.escaped he hat
    · have hb := quotedByte_of_le (hhigh b mem_cons_self)
      rw [quotedByte_of_escape he] at hb
      cases hb
  | none =>
    obtain ⟨h39, h92⟩ := plain_spec he
    have hall : ∀ x ∈ b :: bs, quotedByte x = [x] := by
      rcases hshape.ascii_or with ⟨rfl, -⟩ | hhigh
      · intro x hx
        rw [mem_singleton.1 hx]
        exact quotedByte_of_plain he
      · exact fun x hx => quotedByte_of_le (hhigh x hx)
    rw [flatMap_quotedByte hall] at hat
    exact hQ.plain hshape h39 h92 hat

theorem QuotedChars.rounds_run {cs : List Char} (h0 : '\u0000' ∉ cs) {rest : List Int} (hrest : rest.headD eof ≠ singleQuote) {a : List UInt8} {s : ScanState σ} (hfuel : cs.length < fuel) (hfits : NameFits a.length cs)
    (hexc : s.bpException = none) (hat : F.At s.source (((validText cs).flatMap quotedByte).map f ++ f 39 :: rest)) :
    ∃ r, F.At r rest.tail ∧ (rounds .rounds (quotedRound R singleQuote) fuel (quotedState a) >>= endQuoted) s =
      .ok (.token (.lower (a ++ validText cs)), ⟨r, rest.headD eof, none⟩) := by
  induction cs generalizing fuel a s with
  | nil =>
    obtain ⟨fuel, rfl⟩ := Nat.exists_eq_succ_of_ne_zero (Nat.ne_of_gt hfuel)
    obtain ⟨r, hr, hread⟩ := hQ.close hrest hat
    refine ⟨r, hr, (quotedRounds_end hread fun hmore => absurd hmore.1 (by decide)).trans ?_⟩
    rw [endQuoted, bind_of_ok (putEnd_room hfits _), hexc, validText, flatMap_nil, append_nil]
    rfl
  | cons c cs ih =>
    obtain ⟨fuel, rfl⟩ := Nat.exists_eq_succ_of_ne_zero (Nat.ne_of_gt (Nat.zero_lt_of_lt hfuel))
    rw [validText_cons, flatMap_append, List.map_append, append_assoc] at hat
    obtain ⟨r, hr, hread⟩ := hQ.read (fun hc => h0 (hc ▸ mem_cons_self)) hat
    have hlen : (a ++ codepointBytes c.toNat).length = a.length + (String.utf8EncodeChar c).length := by
      rw [codepointBytes_char, length_append]
    obtain ⟨r', hr', hrun⟩ := ih (a := a ++ codepointBytes c.toNat) (s := { s with source := r })
      (fun hmem => h0 (mem_cons_of_mem c hmem)) (Nat.lt_of_succ_lt_succ hfuel) (hlen ▸ hfits.2) hexc hr
    refine ⟨r', hr', ?_⟩
    have hmore : (0 : Int) ≤ c.toNat ∧ ({ s with source := r } : ScanState σ).bpException = none :=
      ⟨Int.natCast_nonneg _, hexc⟩
    rw [quotedState, quotedRounds_char hread hmore (putCodepoint_room hfits.1 _), hrun, codepointBytes_char, validText_cons,
      append_assoc]

/-- The loop over a quoted name that does not fit: an error is reported, or the buffer overflows. -/
theorem QuotedChars.rounds_long (h : QuietReader R eof) {cs : List Char} (h0 : '\u0000' ∉ cs) {rest : List Int}
    (hrest : rest.headD eof ≠ singleQuote) {a : List UInt8} {s t : ScanState σ} {p : Pass}
    (ha : a.length ≤ maxStrLen) (hlong : ¬ NameFits a.length cs) (hexc : s.bpException = none)
    (hat : F.At s.source (((validText cs).flatMap quotedByte).map f ++ f 39 :: rest))
    (hrun : (rounds .rounds (quotedRound R singleQuote) fuel (quotedState a) >>= endQuoted) s = .ok (p, t)) :
    (∃ tok, p = .token tok) ∧ t.bpException ≠ none := by
  induction cs generalizing fuel a s with
  | nil =>
    cases fuel with
    | zero => cases hrun
    | succ fuel =>
      obtain ⟨r, hr, hread⟩ := hQ.close hrest hat
      rw [quotedState, quotedRounds_end hread fun hmore => absurd hmore.1 (by decide),
        (endQuoted_iff a _).2 (not_lt.1 hlong)] at hrun
      cases hrun
  | cons c cs ih =>
    cases fuel with
    | zero => cases hrun
    | succ fuel =>
      rw [validText_cons, flatMap_append, List.map_append, append_assoc] at hat
      obtain ⟨r, hr, hread⟩ := hQ.read (fun hc => h0 (hc ▸ mem_cons_self)) hat
      have hmore : (0 : Int) ≤ c.toNat ∧ ({ s with source := r } : ScanState σ).bpException = none :=
        ⟨Int.natCast_nonneg _, hexc⟩
      by_cases hfit : FitsAt a.length c.toNat
      · have hlen : (a ++ codepointBytes c.toNat).length = a.length + (String.utf8EncodeChar c).length := by
          rw [codepointBytes_char, length_append]
        rw [quotedState, quotedRounds_char hread hmore (putCodepoint_room hfit _)] at hrun
        refine ih (a := a ++ codepointBytes c.toNat) (s := { s with source := r })
          (fun hmem => h0 (mem_cons_of_mem c hmem)) ?_ ?_ hexc hr hrun
        · rw [length_append_codepointBytes]
          exact hfit.le
        · rw [hlen]
          exact fun hfits => hlong ⟨hfit, hfits⟩
      · obtain ⟨n, hput⟩ := putCodepoint_full ha hfit { s with source := r }
        rw [quotedState, quotedRounds_char hread hmore hput] at hrun
        cases fuel with
        | zero => cases hrun
        | succ fuel =>
          -- after the exception one more character is read, and the name ends
          cases hread' : R.readUtf8Character singleQuote ⟨r, s.lastc, some .tok2long⟩ with
          | error e =>
            rw [quotedRounds_trap hread'] at hrun
            cases hrun
          | ok x =>
            obtain ⟨d', t'⟩ := x
            have hraised := (reads_taken h hread').2 (Option.some_ne_none _)
            rw [quotedRounds_end hread' fun hboth => hraised hboth.2] at hrun
            obtain ⟨hp, hexc'⟩ := endQuoted_ok hrun
            exact ⟨⟨_, hp⟩, hexc'.symm ▸ hraised⟩

end

/-! ## Names without quotes -/

section
variable {b : UInt8} (hb : 97 ≤ b ∧ b ≤ 122)
include hb

theorem isNameByte_lower : isNameByte b = true := by
  unfold isNameByte
  exact decide_eq_true (.inr (.inr (.inr hb)))

theorem inTypeOf_lower : b.toNat < 128 ∧ inTypeOf b.toNat = some .lower := by
  have hall : ∀ n < 256, 97 ≤ UInt8.ofNat n ∧ UInt8.ofNat n ≤ 122 → n < 128 ∧ inTypeOf n = some .lower := by
    decide +kernel
  exact hall b.toNat b.toNat_lt (by rwa [UInt8.ofNat_toNat])

theorem lower_pos : 0 < (b.toNat : Int) := by
  have hle : (97 : UInt8).toNat ≤ b.toNat := UInt8.le_iff_toNat_le.1 hb.1
  exact Int.natCast_pos.2 (Nat.lt_of_lt_of_le (by decide) hle)

end

theorem singleQuoteNeeded_eq_false {name : List UInt8} (h : singleQuoteNeeded name = false) :
    ∃ b t, name = b :: t ∧ (97 ≤ b ∧ b ≤ 122) ∧ ∀ x ∈ t, isNameByte x = true := by
  cases name with
  | nil => cases h
  | cons b t =>
    by_cases hb : 97 ≤ b ∧ b ≤ 122
    · rw [singleQuoteNeeded, if_pos hb, any_eq_false] at h
      refine ⟨b, t, rfl, hb, fun x hx => ?_⟩
      have hx' := h x hx
      simpa using hx'
    · rw [singleQuoteNeeded, if_neg hb] at h
      cases h


section
variable {σ : Type} {R : Reader σ} {eof : Int} (F : Feed R.toSource eof) {f : UInt8 → Int} (hf : Coded f)
  {s : ScanState σ} {rest : List Int} {b : UInt8} {t a : List UInt8}

theorem isNameByte_spec (h : isNameByte b = true) : b.toNat < 128 ∧ isNameChar b.toNat = true := by
  have hall : ∀ n < 256, isNameByte (UInt8.ofNat n) = true → n < 128 ∧ isNameChar n = true := by decide +kernel
  have hb := hall b.toNat b.toNat_lt
  rw [UInt8.ofNat_toNat] at hb
  exact hb h

include hf in
theorem nameRounds_run (hname : isNameByte b = true) (ht : ∀ x ∈ t, isNameByte x = true) (hfuel : t.length < fuel)
    (hroom : a.length + t.length < maxStrLen) (hend : isNameChar (rest.headD eof) = false)
    (htype : inTypeOf (rest.headD eof) ≠ none) (hat : F.At s.source (t.map f ++ rest)) :
    ∃ r, F.At r rest.tail ∧ rounds .rounds (nameRound R) fuel (a, (maxStrLen : Int) - a.length, (b.toNat : Int)) s =
      .ok ((a ++ b :: t, rest.headD eof), { s with source := r }) := by
  induction t generalizing b a fuel s with
  | nil =>
    obtain ⟨fuel, rfl⟩ := Nat.exists_eq_succ_of_ne_zero (Nat.ne_of_gt hfuel)
    rw [map_nil, nil_append] at hat
    obtain ⟨r, hr, -, hget⟩ := F.getc hat
    obtain ⟨ty, hty⟩ := Option.ne_none_iff_exists'.1 htype
    refine ⟨r, hr, rounds_of_inr ?_⟩
    rw [nameRound_room F hroom, bind_of_ok hget, bind_of_ok (F.inType_run hty _), hend, toBYTE_toNat]
    rfl
  | cons x t ih =>
    obtain ⟨fuel, rfl⟩ := Nat.exists_eq_succ_of_ne_zero (Nat.ne_of_gt (Nat.zero_lt_of_lt hfuel))
    obtain ⟨hx, ht⟩ := forall_mem_cons.1 ht
    obtain ⟨hascii, hchar⟩ := isNameByte_spec hx
    rw [map_cons, hf.of_lt hascii, cons_append] at hat
    obtain ⟨r, hr, hget⟩ := getc_cons F hat
    obtain ⟨ty, hty⟩ : ∃ ty, inTypeOf x.toNat = some ty := by
      cases hty : inTypeOf x.toNat with
      | none =>
        unfold isNameChar at hchar
        rw [hty] at hchar
        cases hchar
      | some ty => exact ⟨ty, rfl⟩
    rw [length_cons] at hroom hfuel
    have hlen : (a ++ [b]).length = a.length + 1 := length_snoc a b
    obtain ⟨r', hr', hrun⟩ := ih (a := a ++ [b]) (s := { s with source := r }) hx ht (Nat.lt_of_succ_lt_succ hfuel)
      (by omega) hr
    refine ⟨r', hr', ?_⟩
    have hround : nameRound R (a, (maxStrLen : Int) - a.length, (b.toNat : Int)) s =
        .ok (.inl (a ++ [b], (maxStrLen : Int) - (a ++ [b]).length, (x.toNat : Int)), { s with source := r }) := by
      rw [nameRound_room F (by omega), bind_of_ok hget, bind_of_ok (F.inType_run hty _), hchar, toBYTE_toNat]
      rfl
    rw [rounds_of_inl hround, hrun, append_assoc]
    rfl

include hf in
theorem caseLower_run (hb : 97 ≤ b ∧ b ≤ 122) (ht : ∀ x ∈ t, isNameByte x = true) (hlen : (b :: t).length < maxStrLen)
    (hend : isNameChar (rest.headD eof) = false) (htype : inTypeOf (rest.headD eof) ≠ none)
    (hat : F.At s.source (t.map f ++ rest)) :
    ∃ r, F.At r rest.tail ∧ caseLower R b.toNat s = .ok (.token (.lower (b :: t)), ⟨r, rest.headD eof, s.bpException⟩) := by
  have hname := isNameByte_lower hb
  have hfuel : t.length < R.room s.source + 2 := by
    rw [F.room hat, length_append, length_map]
    omega
  rw [length_cons] at hlen
  obtain ⟨r, hr, hrun⟩ := nameRounds_run (a := []) F hf hname ht hfuel (by simpa using Nat.lt_of_succ_lt hlen) hend htype hat
  refine ⟨r, hr, ?_⟩
  have hloop : R.loop (nameRound R) ([], (maxStrLen : Int), b.toNat) s =
      .ok ((b :: t, rest.headD eof), { s with source := r }) :=
    hrun
  have hscan : scanName R b.toNat s = .ok ((b :: t, rest.headD eof), { s with source := r }) := by
    show (R.loop (nameRound R) ([], (maxStrLen : Int), b.toNat) >>= fun x => do
      putEnd x.1
      pure x) s = _
    rw [bind_of_ok hloop, bind_of_ok (putEnd_room (a := b :: t) hlen _)]
    rfl
  rw [caseLower, bind_of_ok hscan]
  rfl

end

/-! ## Calls -/

theorem length_le_validText {cs : List Char} (h0 : '\u0000' ∉ cs) : cs.length ≤ (validText cs).length := by
  have hcodes : ∀ cp ∈ codePoints cs, IsCode cp := by
    intro cp hcp
    obtain ⟨c, hc, rfl⟩ := mem_map.1 hcp
    exact isCode_char fun hnul => h0 (hnul ▸ hc)
  have hle := length_le_utf8Text hcodes
  rwa [utf8Text_codePoints, codePoints, length_map] at hle

section
variable {σ : Type} {R : Reader σ} {eof : Int} {F : Feed R.toSource eof} {f : UInt8 → Int} {s : ScanState σ}
  {c : Int} {cs rest : List Int}

/-- A call whose token ends before `rest`. -/
def Calls (F : Feed R.toSource eof) (fl : Flags) (s : ScanState σ) (tok : Token) (rest : List Int) : Prop :=
  ∃ r, F.At r rest.tail ∧ getToken R fl s = ⟨0, .ok (some tok, ⟨r, rest.headD eof, none⟩)⟩

theorem calls_of_pass {fl : Flags} {tok : Token} (hnul : R.atNul (ch ' ') = false)
    (hpass : ∀ s, F.At s.source cs → s.bpException = none →
      ∃ r, F.At r rest.tail ∧ scanToken R fl c s = .ok (.token tok, ⟨r, rest.headD eof, none⟩))
    (h : F.Ready (c :: cs) s) : Calls F fl s tok rest := by
  obtain ⟨s0, fuel, ⟨-, hat⟩, hexc, hcall⟩ := F.getToken_ready fl hnul h
  obtain ⟨r, hr, hscan⟩ := hpass s0 hat hexc
  refine ⟨r, hr, ?_⟩
  rw [hcall, headD_cons, getTokenFrom, hscan]

structure EndsName (eof : Int) (rest : List Int) : Prop where
  quote : rest.headD eof ≠ singleQuote
  name : isNameChar (rest.headD eof) = false
  type : inTypeOf (rest.headD eof) ≠ none

theorem calls_qname (hQ : QuotedChars F f) (hf : Coded f) (hnul : ∀ c, 0 < c → R.atNul c = false) (fl : Flags)
    {name : List Char} (h0 : '\u0000' ∉ name) (hfits : NameFits 0 name) (hrest : EndsName eof rest)
    (h : F.Ready ((qname (validText name)).map f ++ rest) s) : Calls F fl s (.lower (validText name)) rest := by
  cases hneed : singleQuoteNeeded (validText name) with
  | true =>
    have h39 : f 39 = singleQuote := hf.of_lt (by decide)
    rw [qname_quoted hneed, map_cons, h39, cons_append, List.map_append, map_singleton, append_assoc] at h
    refine calls_of_pass (hnul _ (by decide)) ?_ h
    intro s hat hexc
    have hfuel : name.length < R.room s.source + 2 := by
      have hle := (length_le_validText h0).trans (length_le_quoted _)
      rw [F.room hat, length_append, length_map]
      omega
    obtain ⟨r, hr, hrun⟩ := hQ.rounds_run (a := []) h0 hrest.quote hfuel hfits hexc hat
    refine ⟨r, hr, ?_⟩
    rw [scanToken, hnul _ (by decide), if_neg Bool.false_ne_true,
      bind_of_ok (F.inType_run (show inTypeOf singleQuote = some .atmqt by decide) s)]
    exact hrun
  | false =>
    have hlen := hfits.length_lt
    rw [Nat.zero_add] at hlen
    rw [qname_plain hneed] at h
    obtain ⟨b, t, htext, hb, ht⟩ := singleQuoteNeeded_eq_false hneed
    rw [htext] at h hlen ⊢
    obtain ⟨hascii, htype⟩ := inTypeOf_lower hb
    rw [map_cons, hf.of_lt hascii, cons_append] at h
    refine calls_of_pass (hnul _ (by decide)) ?_ h
    intro s hat hexc
    obtain ⟨r, hr, hrun⟩ := caseLower_run F hf hb ht hlen hrest.name hrest.type hat
    refine ⟨r, hr, ?_⟩
    rw [scanToken, hnul _ (lower_pos hb), if_neg Bool.false_ne_true, bind_of_ok (F.inType_run htype s)]
    rw [hexc] at hrun
    exact hrun

end

/-! ## Names that fit -/

theorem length_utf8EncodeChar (c : Char) : (String.utf8EncodeChar c).length = codepointLength c.toNat := by
  rw [← codepointBytes_char, codepointBytes, length_map, codepointLength]

theorem nameFits_quoted {cs : List Char} (h : n + (validText cs).length + 2 < maxStrLen) : NameFits n cs := by
  induction cs generalizing n with
  | nil => exact lt_of_le_of_lt (by rw [validText]; exact Nat.le_add_right _ 2) h
  | cons c cs ih =>
    rw [validText_cons, length_append] at h
    refine ⟨?_, ih (by omega)⟩
    rcases le_or_gt (c.toNat : Int) 127 with hc | hc
    · exact .inl ⟨hc, by omega⟩
    · have hwide : 2 ≤ codepointLength c.toNat := by
        unfold codepointLength utf8CodepointToStr
        split_ifs <;> simp
        omega
      rw [← length_utf8EncodeChar] at hwide
      exact .inr ⟨hc, by omega⟩

theorem nameFits_ascii {cs : List Char} (h0 : '\u0000' ∉ cs) (hall : ∀ x ∈ validText cs, x.toNat < 128)
    (h : n + (validText cs).length < maxStrLen) : NameFits n cs := by
  induction cs generalizing n with
  | nil => exact h
  | cons c cs ih =>
    rw [validText_cons, forall_mem_append] at hall
    rw [validText_cons, length_append] at h
    have hc : c ≠ '\u0000' := fun hc => h0 (hc ▸ mem_cons_self)
    refine ⟨.inl ⟨?_, ?_⟩, ih (fun hmem => h0 (mem_cons_of_mem c hmem)) hall.2 (by omega)⟩
    · have hshape := shape_utf8Bytes (isCode_char hc).1 (isCode_char hc).2
      rw [utf8Bytes_char] at hshape
      obtain ⟨b, bs, hbs, -⟩ := hshape.cons
      rw [hbs] at hshape hall
      have hb := hall.1 b mem_cons_self
      rcases hshape.ascii_or with ⟨-, hcp⟩ | hhigh
      · omega
      · exact absurd (hhigh b mem_cons_self) (by omega)
    · have hpos := (codepointLength_le c.toNat).1
      rw [← length_utf8EncodeChar] at hpos
      omega

theorem nameFits_qname {cs : List Char} (h0 : '\u0000' ∉ cs) (h : (qname (validText cs)).length < maxStrLen) :
    NameFits 0 cs := by
  cases hneed : singleQuoteNeeded (validText cs) with
  | true =>
    have hle := length_le_quoted (validText cs)
    rw [qname_quoted hneed, length_cons, length_append, length_singleton] at h
    exact nameFits_quoted (by omega)
  | false =>
    rw [qname_plain hneed] at h
    obtain ⟨b, t, htext, hb, ht⟩ := singleQuoteNeeded_eq_false hneed
    have hall : ∀ x ∈ validText cs, isNameByte x = true := by
      rw [htext]
      exact forall_mem_cons.2 ⟨isNameByte_lower hb, ht⟩
    exact nameFits_ascii h0 (fun x hx => (isNameByte_spec (hall x hx)).1) (by omega)

theorem nameSlots_name {f : UInt8 → Int} {eof : Int} {rest : List Int} {name : List UInt8} (hf : Coded f)
    (hname : ∀ x ∈ name, isNameByte x = true) (hrest : EndsName eof rest) :
    nameSlots eof (name.map f ++ rest) = name.length + 1 := by
  have hall : ∀ c ∈ name.map f, isNameChar c = true := by
    intro c hc
    obtain ⟨x, hx, rfl⟩ := mem_map.1 hc
    obtain ⟨hascii, hchar⟩ := isNameByte_spec (hname x hx)
    rwa [hf.of_lt hascii]
  have hstop : rest.takeWhile isNameChar = [] ∧ rest.dropWhile isNameChar = rest := by
    cases rest with
    | nil => exact ⟨rfl, rfl⟩
    | cons c rest =>
      have hc := hrest.name
      rw [headD_cons] at hc
      exact ⟨takeWhile_cons_of_neg (by rw [hc]; decide), dropWhile_cons_of_neg (by rw [hc]; decide)⟩
  rw [nameSlots, takeWhile_append_of_pos hall, dropWhile_append_of_pos hall, hstop.1, hstop.2, endSlot,
    if_neg hrest.type, append_nil, length_map]

theorem call_long {σ : Type} {R : Reader σ} {eof : Int} {F : Feed R.toSource eof} {f : UInt8 → Int} {s s' : ScanState σ}
    {rest : List Int} (h : QuietReader R eof) (hQ : QuotedChars F f) (hf : Coded f)
    (hnul : ∀ c, 0 < c → R.atNul c = false) (fl : Flags) {name : List Char} (h0 : '\u0000' ∉ name)
    (hlong : ¬ NameFits 0 name) (hrest : EndsName eof rest) (hready : F.Ready ((qname (validText name)).map f ++ rest) s)
    {tok : Token} (hcall : (getToken R fl s).result = .ok (some tok, s')) : s'.bpException ≠ none := by
  obtain ⟨s0, fuel, ⟨-, hat⟩, hexc, heq⟩ := F.getToken_ready fl (hnul _ (by decide)) hready
  rw [heq] at hcall
  have hpass : ∀ p t, scanToken R fl (((qname (validText name)).map f ++ rest).headD eof) s0 = .ok (p, t) →
      (∃ tok, p = .token tok) ∧ t.bpException ≠ none := by
    intro p t hrun
    cases hneed : singleQuoteNeeded (validText name) with
    | true =>
      have h39 : f 39 = singleQuote := hf.of_lt (by decide)
      rw [qname_quoted hneed, map_cons, h39, cons_append, List.map_append, map_singleton, append_assoc] at hat hrun
      rw [headD_cons, scanToken, hnul _ (by decide), if_neg Bool.false_ne_true,
        bind_of_ok (F.inType_run (show inTypeOf singleQuote = some .atmqt by decide) s0)] at hrun
      exact hQ.rounds_long h (a := []) h0 hrest.quote (Nat.zero_le _) hlong hexc hat hrun
    | false =>
      obtain ⟨b, t', htext, hb, ht⟩ := singleQuoteNeeded_eq_false hneed
      have hall : ∀ x ∈ validText name, isNameByte x = true := by
        rw [htext]
        exact forall_mem_cons.2 ⟨isNameByte_lower hb, ht⟩
      have hlen : ¬ 0 + (validText name).length < maxStrLen := fun hlt =>
        hlong (nameFits_ascii h0 (fun x hx => (isNameByte_spec (hall x hx)).1) hlt)
      obtain ⟨hascii, htype⟩ := inTypeOf_lower hb
      have hslots := nameSlots_name hf hall hrest
      rw [qname_plain hneed] at hat hrun
      rw [htext] at hat hrun hslots hlen
      have htrap : scanToken R fl (f b) s0 = .error .buffer := by
        refine (scanToken_iff F h fl hat).2 ⟨?_, ?_⟩
        · rw [hf.of_lt hascii]
          exact hnul _ (lower_pos hb)
        · rw [hf.of_lt hascii, htype]
          show maxStrLen < nameSlots eof ((b.toNat : Int) :: (t'.map f ++ rest))
          rw [map_cons, hf.of_lt hascii, cons_append] at hslots
          rw [hslots]
          omega
      rw [map_cons, cons_append, headD_cons, htrap] at hrun
      cases hrun
  cases hscan : scanToken R fl (((qname (validText name)).map f ++ rest).headD eof) s0 with
  | error e =>
    rw [Feed.getTokenFrom_trap hscan] at hcall
    cases hcall
  | ok x =>
    obtain ⟨p, t⟩ := x
    obtain ⟨⟨tok', rfl⟩, hraised⟩ := hpass p t hscan
    rw [Feed.getTokenFrom_token hscan] at hcall
    cases hcall
    exact hraised

/-! ## The text of a name alone -/

section
variable {σ : Type} {R : Reader σ} {eof : Int} {F : Feed R.toSource eof} {fl : Flags} {s : ScanState σ} {tok tok' : Token}

theorem Calls.ready {rest : List Int} (h : Calls F fl s tok rest) :
    ∃ s', F.Ready rest s' ∧ s'.bpException = none ∧ getToken R fl s = ⟨0, .ok (some tok, s')⟩ := by
  obtain ⟨r, hr, hcall⟩ := h
  exact ⟨⟨r, rest.headD eof, none⟩, .inl ⟨rfl, hr⟩, rfl, hcall⟩

theorem getToken_eof (hnul : R.atNul (ch ' ') = false)
    (hpass : ∀ s, scanToken R fl eof s = .ok (.token tok, { s with lastc := ch ' ' })) (h : F.Ready [] s) :
    ∃ s', F.Ready [] s' ∧ s'.bpException = none ∧ getToken R fl s = ⟨0, .ok (some tok, s')⟩ := by
  obtain ⟨s0, fuel, ⟨-, hat⟩, hexc, hcall⟩ := F.getToken_ready fl hnul h
  refine ⟨{ s0 with lastc := ch ' ' }, .inr ⟨rfl, hat⟩, hexc, ?_⟩
  rw [hcall, headD_nil, getTokenFrom, hpass]

theorem reading_cons {k : Nat} {s' : ScanState σ} (hexc : s'.bpException = none)
    (hcall : getToken R fl s = ⟨0, .ok (some tok, s')⟩) :
    reading R fl (k + 1) s = (0, .token tok) :: if tok = .eofch then [] else reading R fl k s' := by
  rw [reading, hcall]
  exact Call.outcomes_token rfl hexc

end

theorem reading_file_eof (fl : Flags) {s : ScanState (List UInt8)} (h : fileFeed.Ready [] s) (k : Nat) :
    reading fileReader fl (k + 1) s = [(0, .token .eofch)] := by
  obtain ⟨s', -, hexc, hcall⟩ := getToken_eof (R := fileReader) rfl (fun _ => rfl) h
  rw [reading_cons hexc hcall, if_pos rfl]

theorem reading_string_eof (fl : Flags) {s : ScanState StringIn} (h : stringFeed.Ready [] s) (k : Nat) :
    reading stringReader fl k s = List.replicate k (0, .token .endcl) := by
  induction k generalizing s with
  | zero => rfl
  | succ k ih =>
    obtain ⟨s', hs', hexc, hcall⟩ := getToken_eof (R := stringReader) (by decide) (fun _ => rfl) h
    rw [reading_cons hexc hcall, if_neg (by decide), ih hs']
    rfl

/-- The text of a name is one atom token of both tokenizers. -/
theorem qname_roundTrip (fl : Flags) (k : Nat) (name : List Char) (h0 : '\u0000' ∉ name)
    (hlen : (qname (validText name)).length < maxStrLen) :
    bpWriteQnameToBpBuf (validText name) = some (qname (validText name)) ∧
    fileReading fl (k + 2) (qname (validText name)) = [(0, .token (.lower (validText name))), (0, .token .eofch)] ∧
    stringReading fl (k + 2) (qname (validText name)) =
      .token (.lower (validText name)) :: List.replicate (k + 1) (.token .endcl) := by
  have hfits := nameFits_qname h0 hlen
  refine ⟨bpWriteQnameToBpBuf_eq hlen, ?_, ?_⟩
  · have hready := ready_fileStart (qname (validText name))
    rw [← append_nil (fileChars _)] at hready
    have hcalls := calls_qname quotedChars_file coded_file (fun _ _ => rfl) fl h0 hfits
      ⟨by decide, by decide, by decide⟩ hready
    obtain ⟨s', hs', hexc, hcall⟩ := hcalls.ready
    rw [fileReading, reading_cons hexc hcall, if_neg (by nofun), reading_file_eof fl hs']
  · have hready := ready_stringStart (qname (validText name))
    rw [← append_nil (stringChars _)] at hready
    have hcalls := calls_qname quotedChars_string coded_string (fun c hc => decide_eq_false (ne_of_gt hc)) fl h0 hfits
      ⟨by decide, by decide, by decide⟩ hready
    obtain ⟨s', hs', hexc, hcall⟩ := hcalls.ready
    rw [stringReading, reading_cons hexc hcall, if_neg (by nofun), reading_string_eof fl hs', map_cons, map_replicate]

theorem qname_roundTrip_quote : fileReading ⟨1, 0⟩ 2 [39, 105, 116, 92, 39, 115, 39] =
      [(0, .token (.lower [105, 116, 39, 115])), (0, .token .eofch)] :=
  (qname_roundTrip ⟨1, 0⟩ 0 ['i', 't', '\'', 's'] (by decide) (by decide)).2.1

end Picat
