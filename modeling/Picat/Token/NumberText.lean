import Picat.Token.NumberTokens

/-!
# Calls on numerals

* `numeral_sameToken_iff` : the token and the value of a numeral, in a file and in a string.
-/

namespace Picat
open Simulation List

/-! ## Characters and bytes -/

/-- The character of a byte is its number, or from 128 on a number that is less by 256. -/
def Coded (f : UInt8 → Int) : Prop := ∀ b, f b = b.toNat ∨ 128 ≤ b.toNat ∧ f b = b.toNat - 256

theorem coded_file : Coded fun b => (b.toNat : Int) := fun _ => .inl rfl

theorem toCHAR_of_le {b : UInt8} (h : 128 ≤ b.toNat) : toCHAR b.toNat = b.toNat - 256 := by
  have hlt : b.toNat < 256 := b.toNat_lt
  unfold toCHAR
  rw [Int.bmod_def]
  omega

theorem coded_string : Coded fun b => toCHAR b.toNat := by
  intro b
  rcases lt_or_ge b.toNat 128 with h | h
  · exact .inl (toCHAR_of_lt h)
  · exact .inr ⟨h, toCHAR_of_le h⟩

theorem inTypeOf_ne_digit {c : Int} (h : c < 0 ∨ 128 ≤ c) : inTypeOf c ≠ some .digit := by
  have htable : ∀ i < 257, i = 0 ∨ 129 ≤ i → chtype[i]? ≠ some .digit := by decide +kernel
  unfold inTypeOf
  split_ifs with hc
  · nofun
  · by_cases hlen : (c + 1).toNat < 257
    · exact htable _ hlen (by omega)
    · rw [List.getElem?_eq_none (by rw [length_chtype]; omega)]
      nofun

theorem inTypeOf_eq_none_iff (c : Int) : inTypeOf c = none ↔ digValOf c = none := by
  unfold inTypeOf digValOf
  split_ifs
  · exact iff_of_true rfl rfl
  · rw [List.getElem?_eq_none_iff, List.getElem?_eq_none_iff, length_chtype, length_digval]

namespace Coded

variable {f : UInt8 → Int} (hf : Coded f) {b : UInt8} {k : Int}
include hf

theorem of_lt (h : b.toNat < 128) : f b = b.toNat := by
  rcases hf b with heq | ⟨hle, -⟩ <;> omega

theorem eq_iff (h0 : 0 ≤ k) (h1 : k < 128) : f b = k ↔ (b.toNat : Int) = k := by
  have hlt : b.toNat < 256 := b.toNat_lt
  rcases hf b with heq | ⟨hle, heq⟩ <;> omega

theorem type_ne_digit (h : ∀ d < 10, digitOf b ≠ some d) : inTypeOf (f b) ≠ some .digit := by
  rcases lt_or_ge b.toNat 128 with hlt | hge
  · rw [hf.of_lt hlt]
    have htable := (tables_ascii b.toNat hlt).2.2
    rw [UInt8.ofNat_toNat] at htable
    rw [Ne, htable]
    rintro ⟨d, hd, hb⟩
    exact h d hd hb
  · have hlt : b.toNat < 256 := b.toNat_lt
    apply inTypeOf_ne_digit
    rcases hf b with heq | ⟨-, heq⟩ <;> omega

theorem digVal_eq (hb : b.toNat < 128 ∨ b.toNat = 255) (hd : digitOf b = none) (hne : b ≠ underscore) :
    digValOf (f b) = some 99 := by
  rcases hb with hlt | h255
  · rw [hf.of_lt hlt]
    have htable := (tables_ascii b.toNat hlt).2.1
    rw [UInt8.ofNat_toNat] at htable
    exact htable hd fun h => hne (UInt8.toNat_inj.1 h)
  · rcases hf b with heq | ⟨-, heq⟩ <;> rw [heq, h255] <;> decide

theorem type_ne_none (hb : b.toNat < 128 ∨ b.toNat = 255) : inTypeOf (f b) ≠ none := by
  have hlo : -1 ≤ f b := by rcases hf b with heq | ⟨hle, heq⟩ <;> omega
  have hhi : f b ≤ 255 := by rcases hf b with heq | ⟨hle, heq⟩ <;> omega
  obtain ⟨t, ht⟩ := exists_inTypeOf hlo hhi
  rw [ht]
  nofun

theorem baseOf_eq : baseOf (f b) = (letterBase b).map (Nat.cast : Nat → Int) := by
  have htable : ∀ n : Nat, n < 128 → baseOf (n : Int) = (letterBase (UInt8.ofNat n)).map (Nat.cast : Nat → Int) := by
    decide +kernel
  have hhigh : ∀ n : Nat, n < 256 → 128 ≤ n → letterBase (UInt8.ofNat n) = none := by decide +kernel
  rcases lt_or_ge b.toNat 128 with hlt | hge
  · have h := htable b.toNat hlt
    rw [UInt8.ofNat_toNat] at h
    rw [hf.of_lt hlt, h]
  · have h := hhigh b.toNat b.toNat_lt hge
    rw [UInt8.ofNat_toNat] at h
    have hlt : b.toNat < 256 := b.toNat_lt
    have hne : ∀ k : Int, 0 ≤ k → k < 128 → f b ≠ k := fun k h0 h1 hk => by
      have := (hf.eq_iff h0 h1).1 hk
      omega
    rw [h, baseOf, if_neg, if_neg, if_neg]
    · rfl
    all_goals rintro (h | h)
    all_goals exact hne _ (by decide) (by decide) h

end Coded

/-! ## What follows a numeral -/

section
variable {f : UInt8 → Int} {eof : Int} {rest : List UInt8}

theorem headD_map {P : Int → Prop} (heof : P eof) (h : ∀ b ∈ rest.head?, P (f b)) : P ((rest.map f).headD eof) := by
  cases rest with
  | nil => exact heof
  | cons b r => exact h b rfl

theorem eof_type {t : CharType} (heof : eof = -1 ∨ eof = 0) (h1 : inTypeOf (-1) ≠ some t) (h0 : inTypeOf 0 ≠ some t) :
    inTypeOf eof ≠ some t := by
  rcases heof with rfl | rfl
  · exact h1
  · exact h0

theorem eof_ne {k : Int} (heof : eof = -1 ∨ eof = 0) (hk : 0 < k) : eof ≠ k := by omega

theorem eof_digVal (heof : eof = -1 ∨ eof = 0) : digValOf eof = some 99 := by rcases heof with rfl | rfl <;> rfl

variable (hf : Coded f)
include hf

theorem headD_ne {n : UInt8} {k : Int} (hk : k = n.toNat) (h0 : 0 < k) (h1 : k < 128) (heof : eof = -1 ∨ eof = 0)
    (h : ∀ b ∈ rest.head?, b ≠ n) : (rest.map f).headD eof ≠ k := by
  apply headD_map (P := fun c => c ≠ k) (eof_ne heof h0)
  intro b hb heq
  apply h b hb
  rw [hf.eq_iff (by omega) h1, hk] at heq
  exact UInt8.toNat_inj.1 (Int.ofNat.inj heq)

theorem endsDecimal {s : List UInt8} {h1 : IsDigits 10 s} {h2 : DigitFirst s} (heof : eof = -1 ∨ eof = 0)
    (hends : (Numeral.decimal s h1 h2).Ends rest) : Feed.EndsDecimal eof (rest.map f) where
  type := headD_map (P := fun c => inTypeOf c ≠ some .digit) (eof_type heof (by decide) (by decide))
    fun b hb => hf.type_ne_digit (hends.1 b hb).1
  underscore := headD_ne hf (n := 95) rfl (by decide) (by decide) heof fun b hb => (hends.1 b hb).2.1
  radix := headD_ne hf (n := 39) rfl (by decide) (by decide) heof fun b hb => (hends.1 b hb).2.2.1
  point := by
    intro hpoint
    cases rest with
    | nil => exact absurd hpoint (eof_ne heof (by decide))
    | cons b r =>
      apply headD_map (P := fun c => inTypeOf c ≠ some .digit) (eof_type heof (by decide) (by decide))
      intro b' hb'
      apply hf.type_ne_digit
      have hb : b = 46 := by
        rw [map_cons, headD_cons, hf.eq_iff (by decide) (by decide)] at hpoint
        exact UInt8.toNat_inj.1 (Int.ofNat.inj hpoint)
      cases r with
      | nil => cases hb'
      | cons b2 r =>
        cases hb'
        exact hends.2 b' r (by rw [hb])

/-- The tables have what is looked at after a decimal, when they have the characters of these bytes. -/
theorem tablesHave_iff {s : List UInt8} (h1 : IsDigits 10 s) (h2 : DigitFirst s) (rest : List UInt8)
    (heof : eof = -1 ∨ eof = 0) :
    Feed.TablesHave eof (rest.map f) ↔ ∀ b ∈ (Numeral.decimal s h1 h2).looksAt rest, inTypeOf (f b) ≠ none := by
  have hend : inTypeOf eof ≠ none := by rcases heof with rfl | rfl <;> decide
  have hlook : (Numeral.decimal s h1 h2).looksAt rest = if rest.head? = some 46 then rest.take 2 else rest.take 1 := rfl
  rw [hlook, Feed.TablesHave]
  cases rest with
  | nil => exact ⟨fun _ => nofun, fun _ => ⟨hend, fun _ => hend⟩⟩
  | cons b r =>
    rw [map_cons, headD_cons, tail_cons, List.head?_cons]
    by_cases hb : b = 46
    · have hpoint : f b = intab.dpoint := by rw [hf.eq_iff (by decide) (by decide), hb]; rfl
      rw [if_pos (congrArg some hb)]
      cases r with
      | nil =>
        constructor
        · rintro ⟨htype, -⟩ b' hb'
          rw [mem_singleton.1 hb']
          exact htype
        · exact fun h => ⟨h b mem_cons_self, fun _ => hend⟩
      | cons b2 r =>
        constructor
        · rintro ⟨htype, htype2⟩ b' hb'
          rcases mem_cons.1 hb' with rfl | hb'
          · exact htype
          · rw [mem_singleton.1 hb']
            exact htype2 hpoint
        · exact fun h => ⟨h b mem_cons_self, fun _ => h b2 (mem_cons_of_mem _ mem_cons_self)⟩
    · have hpoint : f b ≠ intab.dpoint := by
        rw [Ne, hf.eq_iff (by decide) (by decide)]
        exact fun h => hb (UInt8.toNat_inj.1 (Int.ofNat.inj h))
      rw [if_neg fun h => hb (Option.some.inj h)]
      constructor
      · rintro ⟨htype, -⟩ b' hb'
        rw [mem_singleton.1 hb']
        exact htype
      · exact fun h => ⟨h b mem_cons_self, fun hc => absurd hc hpoint⟩

end

/-! ## Tokens -/

def Numeral.token : Numeral → Token
  | .decimal s _ _ => .digit (storedDigits s)
  | .based _ base _ s _ _ => numberToken (valueFrom base 0 s)
  | .radix r _ _ _ _ s _ => numberToken (valueFrom (valueFrom 10 0 r) 0 s)

theorem tokenValue_token (n : Numeral) : tokenValue n.token = .ok (.number (numberTerm n.val)) := by
  cases n with
  | decimal s h hfirst =>
    have hval := digitsValue_eq (v := 0) (by decide) (allDigits_storedDigits h)
    rw [valueFrom_storedDigits, Nat.cast_zero] at hval
    show TokenValue.number <$> digitsValue 0 (storedDigits s) = _
    rw [hval]
    rfl
  | based letter base hbase s h hfirst => exact tokenValue_numberToken _
  | radix r hr hfirst hpos hmax s h => exact tokenValue_numberToken _

def Tabled (b : UInt8) : Prop := b.toNat < 128 ∨ b.toNat = 255

instance (b : UInt8) : Decidable (Tabled b) := by unfold Tabled; infer_instance

variable {base : Nat} {fl : Flags} {s0 : List UInt8} {ds : List Nat}

namespace Numeral

/-- The stored digits and their NUL go into `AtomStr`, and the tables have what is looked at after the numeral. -/
def Fits (n : Numeral) (rest : List UInt8) : Prop := n.stored.length < maxStrLen ∧ ∀ b ∈ n.looksAt rest, Tabled b

/-- `AtomStr` overflows, or the tables are missed. -/
def Misses (f : UInt8 → Int) (n : Numeral) (rest : List UInt8) : Prop :=
  maxStrLen ≤ n.stored.length ∨ ∃ b ∈ n.looksAt rest, inTypeOf (f b) = none

theorem misses_of_not_fits {n : Numeral} {rest : List UInt8} (h : ¬ n.Fits rest) :
    n.Misses (fun b => toCHAR b.toNat) rest := by
  by_cases hlen : n.stored.length < maxStrLen
  · obtain ⟨b, hb, hnot⟩ : ∃ b ∈ n.looksAt rest, ¬ Tabled b := by
      by_contra hall
      push Not at hall
      exact h ⟨hlen, hall⟩
    refine .inr ⟨b, hb, ?_⟩
    have hge : 128 ≤ b.toNat := not_lt.1 fun hlt => hnot (.inl hlt)
    have hne : b.toNat ≠ 255 := fun h255 => hnot (.inr h255)
    have hlt : b.toNat < 256 := b.toNat_lt
    show inTypeOf (toCHAR b.toNat) = none
    rw [toCHAR_of_le hge, inTypeOf, if_pos (by omega)]
  · exact .inl (not_lt.1 hlen)

theorem exists_digit_cons {s : List UInt8} (h : IsDigits base s) (hfirst : DigitFirst s) :
    ∃ b t d, s = b :: t ∧ digitOf b = some d ∧ d < base := by
  obtain ⟨b, hb, hd⟩ := hfirst
  obtain ⟨d, hd⟩ := Option.isSome_iff_exists.1 hd
  cases s with
  | nil => cases hb
  | cons b' t =>
    cases hb
    exact ⟨b, t, d, rfl, hd, h.head_lt hd⟩

theorem text_digit_cons (n : Numeral) : ∃ b t d, n.text = b :: t ∧ digitOf b = some d ∧ d < 10 := by
  cases n with
  | decimal s h hfirst => exact exists_digit_cons h hfirst
  | based letter base hbase s h hfirst => exact ⟨48, _, 0, rfl, rfl, by decide⟩
  | radix r hr hfirst hpos hmax s h =>
    obtain ⟨b, t, d, rfl, hb, hd⟩ := exists_digit_cons hr hfirst
    exact ⟨b, _, d, rfl, hb, hd⟩

theorem letterBase_eq_none {b : UInt8} (h : b = underscore ∨ ∃ d < 10, digitOf b = some d) : letterBase b = none := by
  rcases h with rfl | ⟨d, hd, hb⟩
  · rfl
  · have hbyte := digitOf_ten hb hd
    unfold letterBase
    rw [if_neg, if_neg, if_neg]
    all_goals rintro (rfl | rfl)
    all_goals exact absurd hbyte (by
      have hlt : d < 10 := hd
      simp only [UInt8.reduceToNat]
      omega)

end Numeral

namespace Feed

variable {σ : Type} {R : Reader σ} {eof : Int} (F : Feed R.toSource eof) {s : ScanState σ} {cs : List Int} {c : Int}
variable {b : UInt8} {d : Nat} {t : List UInt8}

/-- A number without a letter: what is stored before the loop over its digits, and the digits that are left. -/
theorem caseDigit_number (hcur : F.Cur (before (b :: t) cs) c s)
    (hbase : b = 48 → baseOf ((before t cs).headD eof) = none) :
    ∃ a t' c' r, a ++ t' = b :: t ∧ AllDigits a ∧ a.length ≤ 1 ∧ (t' = [] → cs ≠ [] → F.Back r) ∧
      F.Cur (before t' cs) c' { s with source := r } ∧
      caseDigit R c s = scanNumber R a c' { s with source := r } := by
  by_cases h0 : b = 48
  · obtain ⟨rfl, hat⟩ := hcur
    obtain ⟨r, hcur', hback, hget⟩ := F.getc_cur (show F.At s.source (before t cs) from hat)
    refine ⟨[b], t, _, r, rfl, ?_, Nat.le_refl 1, fun ht hcs => hback (.inl ?_), hcur', ?_⟩
    · intro x hx
      rw [mem_singleton.1 hx, h0]
      exact ⟨0, by decide, rfl⟩
    · rw [ht]
      exact hcs
    · have hzero : (before (b :: t) cs).headD eof = ch '0' := by rw [h0]; rfl
      have hput : putChar [] (ch '0') { s with source := r } = .ok ([b], { s with source := r }) := by
        rw [h0]
        rfl
      rw [caseDigit, if_pos hzero, bind_of_ok hget, hbase h0, hzero]
      exact bind_of_ok hput
  · refine ⟨[], b :: t, c, s.source, rfl, nofun, Nat.zero_le 1, nofun, hcur, ?_⟩
    have hne : c ≠ ch '0' := by
      rw [hcur.1]
      exact fun h => h0 (UInt8.toNat_inj.1 (Int.ofNat.inj h))
    rw [caseDigit, if_neg hne]

theorem storedDigits_append {a t' s : List UInt8} (ha : AllDigits a) (h : a ++ t' = s) :
    a ++ storedDigits t' = storedDigits s := by
  have hself : storedDigits a = a := by
    apply filter_eq_self.2
    intro x hx
    obtain ⟨d, -, hd⟩ := ha x hx
    have hne : x ≠ underscore := fun h => digit_ne_underscore hd (h ▸ underscore_char)
    simpa using hne
  have happ : storedDigits (a ++ t') = storedDigits a ++ storedDigits t' := filter_append ..
  rw [← h, happ, hself]

theorem baseOf_next (hdigits : IsDigits 10 (b :: t)) (hnil : t = [] → baseOf (cs.headD eof) = none) :
    baseOf ((before t cs).headD eof) = none := by
  cases t with
  | nil => exact hnil rfl
  | cons b' t =>
    have hb' := Numeral.letterBase_eq_none (hdigits b' (mem_cons_of_mem _ mem_cons_self))
    have hbase := coded_file.baseOf_eq (b := b')
    rw [hb'] at hbase
    exact hbase

/-- What a run over a numeral comes to: its token when it `fits`, nothing when it `misses`. -/
structure Reads (fits misses atEnd : Prop) (eof : Int) (tok : Token) (e : Option TokenError)
    (out : Except Trap (Pass × ScanState σ)) : Prop where
  ok : fits → ∃ s', out = .ok (.token tok, s') ∧ s'.bpException = e ∧ (atEnd → s'.lastc = eof)
  trap : misses → ∃ e, out = .error e

section
variable {f : UInt8 → Int} (hf : Coded f) {rest : List UInt8}
include hf

theorem caseDigit_decimal (h : IsDigits 10 s0) (hfirst : DigitFirst s0)
    (hends : (Numeral.decimal s0 h hfirst).Ends rest) (hcur : F.Cur (before s0 (rest.map f)) c s) :
    Reads ((Numeral.decimal s0 h hfirst).Fits rest) ((Numeral.decimal s0 h hfirst).Misses f rest) (rest = []) eof
      (.digit (storedDigits s0)) s.bpException (caseDigit R c s) := by
  obtain ⟨b, t, d, rfl, -, -⟩ := Numeral.exists_digit_cons h hfirst
  have hbase : b = 48 → baseOf ((before t (rest.map f)).headD eof) = none := by
    intro h0
    apply baseOf_next h
    intro ht
    apply headD_map (P := fun c => baseOf c = none)
    · rcases F.eof_cases with heof | heof <;> rw [heof] <;> rfl
    · intro x hx
      rw [hf.baseOf_eq, (hends.1 x hx).2.2.2 (by rw [h0, ht])]
      rfl
  obtain ⟨a, t', c', r, hat, ha, hlen, hback, hcur', hrun⟩ := F.caseDigit_number hcur hbase
  have hstored := storedDigits_append ha hat
  have ht' : IsDigits 10 t' := fun x hx => h x (hat ▸ mem_append_right a hx)
  have hsum : a.length + (storedDigits t').length = (storedDigits (b :: t)).length := by
    rw [← hstored, length_append]
  obtain ⟨hok, htrap⟩ := F.scanNumber_decimal (s := { s with source := r }) (endsDecimal hf F.eof_cases hends) ht'
    (le_trans hlen (by decide)) hback hcur'
  rw [hsum, hstored] at hok
  rw [hsum] at htrap
  have htables := tablesHave_iff hf h hfirst rest F.eof_cases
  constructor
  · rintro ⟨hroom, hlook⟩
    obtain ⟨s', hscan, hexc, hlast⟩ := hok hroom (htables.2 fun x hx => hf.type_ne_none (hlook x hx))
    refine ⟨s', hrun.trans hscan, hexc, fun hnil => ?_⟩
    rw [hlast, hnil]
    rfl
  · intro hbad
    have hnot : ¬ ((storedDigits (b :: t)).length < maxStrLen ∧ TablesHave eof (rest.map f)) := by
      rintro ⟨hroom, htab⟩
      rcases hbad with hlong | ⟨x, hx, hnone⟩
      · exact absurd hroom (not_lt.2 hlong)
      · exact htables.1 htab x hx hnone
    obtain ⟨e, he⟩ := htrap hnot
    exact ⟨e, hrun.trans he⟩

theorem EndsWith.reads {tok : Token} {out : Except Trap (Pass × ScanState σ)} {fits misses : Prop}
    {e : Option TokenError} (h : F.EndsWith (rest.map f) e tok out)
    (hends : ∀ b ∈ rest.head?, digitOf b = none ∧ b ≠ underscore)
    (hfits : fits → ∀ b ∈ rest.take 1, Tabled b) (hmisses : misses → ∃ b ∈ rest.take 1, inTypeOf (f b) = none) :
    Reads fits misses (rest = []) eof tok e out := by
  constructor
  · intro hfit
    have hval : digValOf ((rest.map f).headD eof) = some 99 := by
      apply headD_map (P := fun c => digValOf c = some 99) (eof_digVal F.eof_cases)
      intro b hb
      have hmem : b ∈ rest.take 1 := by
        cases rest with
        | nil => cases hb
        | cons b' r =>
          cases hb
          exact mem_cons_self
      exact hf.digVal_eq (hfits hfit b hmem) (hends b hb).1 (hends b hb).2
    obtain ⟨s', hout, hexc, hlast⟩ := h.ok hval
    refine ⟨s', hout, hexc, fun hnil => ?_⟩
    rw [hnil] at hlast
    exact (hlast (eof_ne F.eof_cases (by decide))).1
  · intro hmiss
    obtain ⟨b, hb, hnone⟩ := hmisses hmiss
    refine ⟨_, h.trap ?_⟩
    cases rest with
    | nil => cases hb
    | cons b' r =>
      rw [mem_singleton.1 hb] at hnone
      exact (inTypeOf_eq_none_iff _).1 hnone

theorem caseDigit_based {letter : UInt8} (hbase : letterBase letter = some base)
    (h : IsDigits base s0) (hfirst : DigitFirst s0) (hends : (Numeral.based letter base hbase s0 h hfirst).Ends rest)
    (hcur : F.Cur (before (48 :: letter :: s0) (rest.map f)) c s) :
    Reads ((Numeral.based letter base hbase s0 h hfirst).Fits rest)
      ((Numeral.based letter base hbase s0 h hfirst).Misses f rest) (rest = []) eof
      (numberToken (valueFrom base 0 s0)) s.bpException (caseDigit R c s) := by
  obtain ⟨b, t, d, rfl, hb, -⟩ := Numeral.exists_digit_cons h hfirst
  obtain ⟨hpos, hmax⟩ : 0 < base ∧ base ≤ 16 := by
    unfold letterBase at hbase
    split_ifs at hbase <;> cases hbase <;> decide
  obtain ⟨rfl, hat⟩ := hcur
  obtain ⟨r, hcur, -, hget⟩ := F.getc_cur (show F.At s.source (before (letter :: b :: t) (rest.map f)) from hat)
  have hletter : baseOf (letter.toNat : Int) = some (base : Int) := by
    have h := coded_file.baseOf_eq (b := letter)
    rw [hbase] at h
    exact h
  have hunder : (rest.map f).headD eof ≠ ch '_' :=
    headD_ne hf (n := 95) rfl (by decide) (by decide) F.eof_cases fun b hb => (hends b hb).2
  have hrun := F.scanBase_run (s := { s with source := r }) hmax hpos hunder h (by rw [hb]; nofun) hcur.2
  have hcase : caseDigit R ((before (48 :: letter :: b :: t) (rest.map f)).headD eof) s =
      scanBase R base { s with source := r } := by
    rw [caseDigit, if_pos (show (before (48 :: letter :: b :: t) (rest.map f)).headD eof = ch '0' from rfl),
      bind_of_ok hget, before_cons, headD_cons, hletter]
  rw [hcase]
  exact EndsWith.reads F hf hrun hends (fun hfit => hfit.2)
    (fun hmiss => hmiss.resolve_left (by show ¬ maxStrLen ≤ 0; decide))

theorem caseDigit_radix {r : List UInt8} (hr : IsDigits 10 r) (hfirst : DigitFirst r) (hpos : 0 < valueFrom 10 0 r)
    (hmax : valueFrom 10 0 r ≤ 16) (h : IsDigits (valueFrom 10 0 r) s0)
    (hends : (Numeral.radix r hr hfirst hpos hmax s0 h).Ends rest)
    (hcur : F.Cur (before (r ++ 39 :: s0) (rest.map f)) c s) :
    Reads ((Numeral.radix r hr hfirst hpos hmax s0 h).Fits rest)
      ((Numeral.radix r hr hfirst hpos hmax s0 h).Misses f rest) (rest = []) eof
      (numberToken (valueFrom (valueFrom 10 0 r) 0 s0)) s.bpException (caseDigit R c s) := by
  obtain ⟨b, t, d, rfl, -, -⟩ := Numeral.exists_digit_cons hr hfirst
  have htext : before (b :: t ++ 39 :: s0) (rest.map f) = before (b :: t) (intab.radix :: before s0 (rest.map f)) := by
    simp only [before, fileChars, List.map_append, append_assoc, map_cons, cons_append]
    rfl
  rw [htext] at hcur
  obtain ⟨a, t', c', r, hat, ha, hlen, hback, hcur', hrun⟩ := F.caseDigit_number hcur
    fun _ => baseOf_next hr fun _ => rfl
  have hstored := storedDigits_append ha hat
  have ht' : IsDigits 10 t' := fun x hx => hr x (hat ▸ mem_append_right a hx)
  have hsum : a.length + (storedDigits t').length = (storedDigits (b :: t)).length := by
    rw [← hstored, length_append]
  have hval : valueFrom 10 0 (a ++ storedDigits t') = valueFrom 10 0 (b :: t) := by
    rw [hstored, valueFrom_storedDigits]
  obtain ⟨hok, htrap⟩ := F.scanNumber_radix (s := { s with source := r }) ht' ha (le_trans hlen (by decide)) hcur'
    (fun ht => hback ht (cons_ne_nil _ _)) hval hpos hmax h
  rw [hsum] at hok htrap
  rw [hrun]
  by_cases hroom : (storedDigits (b :: t)).length < maxStrLen
  · exact EndsWith.reads F hf (hok hroom) hends (fun hfit => hfit.2) (fun hmiss => hmiss.resolve_left (not_le.2 hroom))
  · exact ⟨fun hfit => absurd hfit.1 hroom, fun _ => ⟨_, htrap hroom⟩⟩

theorem caseDigit_run (n : Numeral) (hends : n.Ends rest) (hcur : F.Cur (before n.text (rest.map f)) c s) :
    Reads (n.Fits rest) (n.Misses f rest) (rest = []) eof n.token s.bpException (caseDigit R c s) := by
  cases n with
  | decimal s0 h hfirst => exact F.caseDigit_decimal hf h hfirst hends hcur
  | based letter base hbase s0 h hfirst => exact F.caseDigit_based hf hbase h hfirst hends hcur
  | radix r hr hfirst hpos hmax s0 h => exact F.caseDigit_radix hf hr hfirst hpos hmax h hends hcur

omit hf in
include F in
theorem scanToken_digit (fl : Flags) (hnul : R.atNul c = false) (hc : inTypeOf c = some .digit) (s : ScanState σ) :
    scanToken R fl c s = caseDigit R c s := by
  rw [scanToken, hnul, if_neg (by decide), bind_of_ok (F.inType_run hc s)]

omit hf in
theorem scanToken_space (fl : Flags) (hnul : R.atNul (ch ' ') = false) (hat : F.At s.source cs) :
    ∃ r, F.Cur cs (cs.headD eof) ⟨r, ch ' ', s.bpException⟩ ∧
      scanToken R fl (ch ' ') s = .ok (.start (cs.headD eof), ⟨r, ch ' ', s.bpException⟩) := by
  obtain ⟨r, hcur, -, hget⟩ := F.getc_cur hat
  refine ⟨r, hcur, ?_⟩
  rw [scanToken, hnul, if_neg (by decide), bind_of_ok (F.inType_run (show inTypeOf (ch ' ') = some .space by decide) s)]
  show caseSpace R s = _
  rw [caseSpace, bind_of_ok hget]
  rfl

omit hf in
theorem getTokenFrom_token {fuel n : Nat} {tok : Token} {s' : ScanState σ}
    (h : scanToken R fl c s = .ok (.token tok, s')) :
    (getTokenFrom R fl (fuel + 1) c n s).result = .ok (some tok, s') := by
  rw [getTokenFrom, h]

omit hf in
theorem getTokenFrom_trap {fuel n : Nat} {e : Trap} (h : scanToken R fl c s = .error e) :
    (getTokenFrom R fl (fuel + 1) c n s).result = .error e := by
  rw [getTokenFrom, h]

omit hf in
theorem getTokenFrom_start {fuel n : Nat} {c' : Int} {s' : ScanState σ} (h : scanToken R fl c s = .ok (.start c', s')) :
    getTokenFrom R fl (fuel + 1) c n s = getTokenFrom R fl fuel c' n s' := by
  rw [getTokenFrom, h]

omit hf in
theorem getToken_ready (fl : Flags) (hnul : R.atNul (ch ' ') = false) (h : F.Ready cs s) :
    ∃ s0 fuel, F.Cur cs (cs.headD eof) s0 ∧ s0.bpException = none ∧
      getToken R fl s = getTokenFrom R fl (fuel + 1) (cs.headD eof) 0 s0 := by
  rcases h with ⟨hlast, hat⟩ | ⟨hlast, hat⟩
  · refine ⟨{ s with bpException := none }, R.room s.source + 2, ⟨rfl, hat⟩, rfl, ?_⟩
    rw [getToken, hlast]
  · obtain ⟨r, hcur, hpass⟩ := F.scanToken_space (s := ⟨s.source, ch ' ', none⟩) fl hnul hat
    refine ⟨_, R.room s.source + 1, hcur, rfl, ?_⟩
    rw [getToken, hlast]
    exact getTokenFrom_start hpass

theorem getToken_run (fl : Flags) (hnul : ∀ c, 0 < c → R.atNul c = false) (n : Numeral) (hends : n.Ends rest)
    (h : F.Ready (before n.text (rest.map f)) s) :
    (n.Fits rest → ∃ s', (getToken R fl s).result = .ok (some n.token, s') ∧ s'.bpException = none ∧
      (rest = [] → s'.lastc = eof)) ∧
    (n.Misses f rest → ∃ e, (getToken R fl s).result = .error e) := by
  obtain ⟨s0, fuel, hcur, hexc, hcall⟩ := F.getToken_ready fl (hnul _ (by decide)) h
  obtain ⟨b, t, d, htext, hb, hd⟩ := n.text_digit_cons
  have hhead : (before n.text (rest.map f)).headD eof = b.toNat := by rw [htext]; rfl
  have hbyte := digitOf_ten hb hd
  have hpass : scanToken R fl ((before n.text (rest.map f)).headD eof) s0 =
      caseDigit R ((before n.text (rest.map f)).headD eof) s0 := by
    rw [hhead]
    exact F.scanToken_digit fl (hnul _ (by omega)) (inTypeOf_digit hb hd) s0
  obtain ⟨hok, htrap⟩ := F.caseDigit_run hf n hends hcur
  rw [hcall]
  constructor
  · intro hfits
    obtain ⟨s', hrun, hexc', hlast⟩ := hok hfits
    exact ⟨s', getTokenFrom_token (hpass.trans hrun), hexc'.trans hexc, hlast⟩
  · intro hmiss
    obtain ⟨e, hrun⟩ := htrap hmiss
    exact ⟨e, getTokenFrom_trap (hpass.trans hrun)⟩

end

end Feed

/-! ## The two tokenizers -/

theorem Numeral.digit_ascii {s : List UInt8} (h : IsDigits base s) : ∀ b ∈ s, b.toNat < 128 := by
  intro b hb
  rcases h b hb with rfl | ⟨d, -, hd⟩
  · decide
  · exact (digitOf_lt hd).1

theorem Numeral.text_ascii (n : Numeral) : ∀ b ∈ n.text, b.toNat < 128 := by
  cases n with
  | decimal s h hfirst => exact digit_ascii h
  | based letter base hbase s h hfirst =>
    have hletter : letter.toNat < 128 := by
      unfold letterBase at hbase
      split_ifs at hbase with h1 h2 h3
      · rcases h1 with rfl | rfl <;> decide
      · rcases h2 with rfl | rfl <;> decide
      · rcases h3 with rfl | rfl <;> decide
    intro b hb
    rcases mem_cons.1 hb with rfl | hb
    · decide
    · rcases mem_cons.1 hb with rfl | hb
      · exact hletter
      · exact digit_ascii h b hb
  | radix r hr hfirst hpos hmax s h =>
    intro b hb
    rcases mem_append.1 hb with hb | hb
    · exact digit_ascii hr b hb
    · rcases mem_cons.1 hb with rfl | hb
      · decide
      · exact digit_ascii h b hb

theorem Coded.map_append {f : UInt8 → Int} (hf : Coded f) (n : Numeral) (rest : List UInt8) :
    (n.text ++ rest).map f = Feed.before n.text (rest.map f) := by
  rw [List.map_append, Feed.before, fileChars]
  congr 1
  exact map_congr_left fun b hb => hf.of_lt (n.text_ascii b hb)

/-- Both calls give the same token, with the number `t`. -/
def SameToken (fl : Flags) (file : ScanState (List UInt8)) (string : ScanState StringIn) (t : Term) : Prop :=
  ∃ tok file' string', (getToken fileReader fl file).result = .ok (some tok, file') ∧ file'.bpException = none ∧
    (getToken stringReader fl string).result = .ok (some tok, string') ∧ string'.bpException = none ∧
    tokenValue tok = .ok (.number t)

theorem numeral_sameToken (fl : Flags) {n : Numeral} {rest : List UInt8} (hends : n.Ends rest)
    {file : ScanState (List UInt8)} {string : ScanState StringIn}
    (hfile : fileFeed.Ready (fileChars (n.text ++ rest)) file)
    (hstring : stringFeed.Ready (stringChars (n.text ++ rest)) string) :
    SameToken fl file string (numberTerm n.val) ↔ n.Fits rest := by
  rw [fileChars, coded_file.map_append] at hfile
  rw [stringChars, coded_string.map_append] at hstring
  have hf := Feed.getToken_run (R := fileReader) fileFeed coded_file fl (fun _ _ => rfl) n hends hfile
  have hs := Feed.getToken_run (R := stringReader) stringFeed coded_string fl
    (fun c hc => decide_eq_false (ne_of_gt hc)) n hends hstring
  constructor
  · rintro ⟨tok, file', string', -, -, hrun, -⟩
    by_contra hnot
    obtain ⟨e, he⟩ := hs.2 (Numeral.misses_of_not_fits hnot)
    rw [he] at hrun
    cases hrun
  · intro hfits
    obtain ⟨file', hrun, hexc, -⟩ := hf.1 hfits
    obtain ⟨string', hrun', hexc', -⟩ := hs.1 hfits
    exact ⟨n.token, file', string', hrun, hexc, hrun', hexc', tokenValue_token n⟩

/-! ## Texts of bigints -/

def textBytes (text : List Char) : List UInt8 := (text.takeWhile (· ≠ Char.ofNat 0)).map fun c => UInt8.ofNat c.toNat

def digitByte (d : Nat) : UInt8 := UInt8.ofNat (asciiDigit d).toNat

theorem digitOf_digitByte : ∀ d < 10, digitOf (digitByte d) = some d ∧ digitByte d ≠ underscore ∧
    asciiDigit d ≠ Char.ofNat 0 := by
  decide +kernel

theorem valueFrom_digits (h : ∀ d ∈ ds, d < 10) (v : Nat) :
    valueFrom 10 v (ds.map digitByte) = v * 10 ^ ds.length + Nat.ofDigits 10 ds.reverse := by
  induction ds generalizing v with
  | nil =>
    rw [length_nil, pow_zero, mul_one]
    rfl
  | cons d ds ih =>
    have hd := (digitOf_digitByte d (h d mem_cons_self)).1
    rw [map_cons, valueFrom_cons_digit hd, ih fun x hx => h x (mem_cons_of_mem _ hx), reverse_cons,
      Nat.ofDigits_append, Nat.ofDigits_singleton, length_reverse, length_cons, pow_succ]
    ring

theorem exists_decimal (hlt : ∀ d ∈ ds, d < 10) (hne : ds ≠ []) :
    ∃ (h : IsDigits 10 (ds.map digitByte)) (hfirst : DigitFirst (ds.map digitByte)),
      (Numeral.decimal (ds.map digitByte) h hfirst).val = Nat.ofDigits 10 ds.reverse ∧
      (Numeral.decimal (ds.map digitByte) h hfirst).stored = ds.map digitByte ∧
      (Numeral.decimal (ds.map digitByte) h hfirst).Ends [] := by
  have h : IsDigits 10 (ds.map digitByte) := by
    intro b hb
    obtain ⟨d, hd, rfl⟩ := mem_map.1 hb
    exact .inr ⟨d, hlt d hd, (digitOf_digitByte d (hlt d hd)).1⟩
  have hfirst : DigitFirst (ds.map digitByte) := by
    cases ds with
    | nil => exact absurd rfl hne
    | cons d ds =>
      refine ⟨digitByte d, rfl, ?_⟩
      rw [(digitOf_digitByte d (hlt d mem_cons_self)).1]
      rfl
  refine ⟨h, hfirst, ?_, ?_, nofun, nofun⟩
  · show valueFrom 10 0 (ds.map digitByte) = _
    rw [valueFrom_digits hlt, Nat.zero_mul, Nat.zero_add]
  · apply filter_eq_self.2
    intro b hb
    obtain ⟨d, hd, rfl⟩ := mem_map.1 hb
    simpa using (digitOf_digitByte d (hlt d hd)).2.1

theorem textBytes_digits (hlt : ∀ d ∈ ds, d < 10) :
    textBytes (ds.map asciiDigit ++ [Char.ofNat 0]) = ds.map digitByte := by
  have hall : ∀ c ∈ ds.map asciiDigit, decide (c ≠ Char.ofNat 0) = true := by
    intro c hc
    obtain ⟨d, hd, rfl⟩ := mem_map.1 hc
    simpa using (digitOf_digitByte d (hlt d hd)).2.2
  rw [textBytes, takeWhile_append_of_pos hall, takeWhile_cons_of_neg (by simp), append_nil, map_map]
  rfl

theorem pos_of_write {op : Bigint} {bufSize : Nat} {r : Int × List Char} (h : bpWriteBigintToStr op bufSize = .ok r) :
    0 < bufSize := by
  rcases Nat.eq_zero_or_pos bufSize with rfl | hpos
  · cases h
  · exact hpos

theorem write_decimal {op : Bigint} (hop : (Term.bigint op).Canon) (h0 : 0 ≤ (Term.bigint op).val) {bufSize : Nat} {i : Int}
    {text : List Char} (hwrite : bpWriteBigintToStr op bufSize = .ok (i, text)) :
    ∃ n : Numeral, n.text = textBytes text ∧ numberTerm n.val = .bigint op ∧ n.Ends [] ∧
      (n.Fits [] ↔ text.length ≤ maxStrLen) := by
  have hspec := bpWriteBigintToStr_spec op hop bufSize (pos_of_write hwrite)
  obtain ⟨ds, htext, hlt, ⟨d, hd, -⟩, hval⟩ : IsNumeral text (Term.bigint op).val := by
    rcases le_or_gt (decimalLength (Term.bigint op).val.natAbs + 3) bufSize with hfit | hshort
    · obtain ⟨i', text', hok, hnum, -⟩ := hspec.1 hfit
      rw [hwrite] at hok
      cases hok
      exact hnum
    · rw [hspec.2 hshort] at hwrite
      cases hwrite
  have hne : ds ≠ [] := by
    rintro rfl
    cases hd
  rw [if_neg (not_lt.2 h0), nil_append] at htext
  obtain ⟨h, hfirst, hnum, hstored, hends⟩ := exists_decimal hlt hne
  refine ⟨.decimal (ds.map digitByte) h hfirst, ?_, ?_, hends, ?_⟩
  · rw [htext, textBytes_digits hlt]
    rfl
  · rw [hnum, hval, Int.natAbs_of_nonneg h0]
    exact ((show Denotes (.bigint op) (Term.bigint op).val from ⟨hop, rfl⟩).eq_numberTerm).symm
  · have hlook : ∀ b ∈ (Numeral.decimal (ds.map digitByte) h hfirst).looksAt [], Tabled b := nofun
    have hlen : text.length = ds.length + 1 := by rw [htext, length_append, length_map, length_singleton]
    rw [Numeral.Fits, hstored, length_map, hlen, and_iff_left hlook]
    rfl

/-- The tokenizers give the same token for a numeral and it has the number that the numeral denotes, when the stored digits
go into `AtomStr` and what follows has a character in the tables, and only then. So it is with the text of a bigint, which
goes into `AtomStr` from the buffers of `MAX_STR_LEN` characters. -/
theorem numeral_sameToken_iff (fl : Flags) : (∀ (n : Numeral) (rest : List UInt8), n.Ends rest →
      ∀ (file : ScanState (List UInt8)) (string : ScanState StringIn),
      fileFeed.Ready (fileChars (n.text ++ rest)) file → stringFeed.Ready (stringChars (n.text ++ rest)) string →
      (SameToken fl file string (numberTerm n.val) ↔ n.Fits rest)) ∧
    ∀ op : Bigint, (Term.bigint op).Canon → 0 ≤ (Term.bigint op).val →
      ∀ (bufSize : Nat) (i : Int) (text : List Char), bpWriteBigintToStr op bufSize = .ok (i, text) →
      ∀ (file : ScanState (List UInt8)) (string : ScanState StringIn),
      fileFeed.Ready (fileChars (textBytes text)) file → stringFeed.Ready (stringChars (textBytes text)) string →
      (SameToken fl file string (.bigint op) ↔ text.length ≤ maxStrLen) := by
  constructor
  · intro n rest hends file string hfile hstring
    exact numeral_sameToken fl hends hfile hstring
  · intro op hop h0 bufSize i text hwrite file string hfile hstring
    obtain ⟨n, htext, hval, hends, hfits⟩ := write_decimal hop h0 hwrite
    rw [← htext, ← append_nil n.text] at hfile hstring
    have hiff := numeral_sameToken fl hends hfile hstring
    rw [hval] at hiff
    exact hiff.trans hfits

theorem ready_fileStart (text : List UInt8) : fileFeed.Ready (fileChars text) (fileStart text) := .inr ⟨rfl, rfl⟩

theorem ready_stringStart (text : List UInt8) : stringFeed.Ready (stringChars text) (stringStart text) :=
  .inr ⟨rfl, rfl, rfl⟩

theorem numeral_sameToken_iff_hex :
    SameToken ⟨1, 0⟩ (fileStart [48, 120, 49, 95, 48, 48, 48, 48, 32]) (stringStart [48, 120, 49, 95, 48, 48, 48, 48, 32])
      (numberTerm 65536) := by
  have hone : digitOf 49 = some 1 := by decide
  have hzero : digitOf 48 = some 0 := by decide
  have hdigits : IsDigits 16 [49, 95, 48, 48, 48, 48] := by
    intro b hb
    simp only [mem_cons, not_mem_nil, or_false] at hb
    obtain rfl | rfl | rfl | rfl | rfl | rfl := hb
    · exact .inr ⟨1, by decide, hone⟩
    · exact .inl rfl
    all_goals exact .inr ⟨0, by decide, hzero⟩
  have hends : (Numeral.based 120 16 rfl [49, 95, 48, 48, 48, 48] hdigits ⟨49, rfl, rfl⟩).Ends [32] := by
    intro b hb
    cases hb
    decide
  have hfits : (Numeral.based 120 16 rfl [49, 95, 48, 48, 48, 48] hdigits ⟨49, rfl, rfl⟩).Fits [32] := by
    refine ⟨show 0 < maxStrLen by decide, fun b hb => ?_⟩
    rw [mem_singleton.1 hb]
    decide
  exact ((numeral_sameToken_iff ⟨1, 0⟩).1 _ [32] hends _ _ (ready_fileStart _) (ready_stringStart _)).2 hfits

/-- A decimal of 8192 digits overflows `AtomStr`. -/
theorem numeral_sameToken_8192 : ¬ ∀ (fl : Flags) (n : Numeral) (rest : List UInt8), n.Ends rest →
      ∀ (file : ScanState (List UInt8)) (string : ScanState StringIn),
      fileFeed.Ready (fileChars (n.text ++ rest)) file → stringFeed.Ready (stringChars (n.text ++ rest)) string →
      SameToken fl file string (numberTerm n.val) := by
  intro h
  have hlt : ∀ d ∈ List.replicate 8192 1, d < 10 := by
    intro d hd
    rw [eq_of_mem_replicate hd]
    decide
  have hne : List.replicate 8192 1 ≠ [] := ne_nil_of_length_pos (by rw [length_replicate]; decide)
  obtain ⟨hdigits, hfirst, -, hstored, hends⟩ := exists_decimal hlt hne
  have hsame := h ⟨1, 0⟩ _ [] hends _ _ (ready_fileStart _) (ready_stringStart _)
  have hfits := (numeral_sameToken _ hends (ready_fileStart _) (ready_stringStart _)).1 hsame
  rw [Numeral.Fits, hstored, length_map, length_replicate] at hfits
  exact absurd hfits.1 (by decide)

end Picat
