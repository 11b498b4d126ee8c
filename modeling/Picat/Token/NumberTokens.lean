import Picat.Token.Numerals

/-!
# Numerals as tokens

The case `DIGIT` on a numeral, over a source with known characters.

* `Feed.scanBaseDigits_run`, `Feed.radixDigits_run`, `Feed.scanDigits_run` : the loops over the digits;
-/

namespace Picat
open Simulation List

variable {σ : Type}

variable {a : List UInt8} {α : Type}

namespace Feed

variable {R : Reader σ} {eof : Int} (F : Feed R.toSource eof) {s : ScanState σ} {cs : List Int} {c : Int}

theorem loop_eq {β : Type} (src : Source σ) (body : α → Scan σ (α ⊕ β)) (a : α) (s : ScanState σ) :
    src.loop body a s = rounds .rounds body (src.room s.source + 2) a s := rfl

/-- Characters of the text `t` and then `cs`. -/
abbrev before (t : List UInt8) (cs : List Int) : List Int := fileChars t ++ cs

theorem before_cons (b : UInt8) (t : List UInt8) (cs : List Int) : before (b :: t) cs = (b.toNat : Int) :: before t cs := rfl

theorem skip_run {us : List UInt8} (hus : ∀ b ∈ us, b = underscore) (hc : cs.headD eof ≠ ch '_') :
    ∀ {fuel : Nat} {c : Int} {s : ScanState σ}, us.length < fuel → F.Cur (before us cs) c s → ∃ r, F.At r cs.tail ∧
        rounds .rounds (fun c => do if c = ch '_' then .inl <$> R.getc else pure (.inr c)) fuel c s =
          .ok (cs.headD eof, { s with source := r }) := by
  induction us with
  | nil =>
    rintro fuel c s hfuel ⟨rfl, hat⟩
    obtain ⟨fuel, rfl⟩ := Nat.exists_eq_succ_of_ne_zero (Nat.ne_of_gt hfuel)
    refine ⟨s.source, hat, rounds_of_inr ?_⟩
    rw [if_neg (show (before [] cs).headD eof ≠ ch '_' from hc)]
    rfl
  | cons b us ih =>
    rintro fuel c s hfuel ⟨rfl, hat⟩
    obtain ⟨fuel, rfl⟩ := Nat.exists_eq_succ_of_ne_zero (Nat.ne_of_gt (Nat.zero_lt_of_lt hfuel))
    obtain rfl := hus b mem_cons_self
    obtain ⟨r, hcur, -, hget⟩ := F.getc_cur (show F.At s.source (before us cs) from hat)
    obtain ⟨r', hat', hrun⟩ := ih (fun b hb => hus b (mem_cons_of_mem _ hb)) (Nat.lt_of_succ_lt_succ hfuel) hcur
    refine ⟨r', hat', ?_⟩
    rw [before_cons, headD_cons, rounds_of_inl, hrun]
    rw [if_pos (show (underscore.toNat : Int) = ch '_' from rfl)]
    exact map_of_ok hget

variable (cs) in
theorem nextDigit_run {us : List UInt8} (hus : ∀ b ∈ us, b = underscore) (hc : cs.headD eof ≠ ch '_')
    (hat : F.At s.source (before us cs)) :
    ∃ r, F.At r cs.tail ∧ nextDigit R s = .ok (cs.headD eof, { s with source := r }) := by
  obtain ⟨r, hcur, -, hget⟩ := F.getc_cur hat
  have hlen : us.length < R.room r + 2 := by
    rw [F.room hcur.2, length_tail, length_append, fileChars, length_map]
    omega
  obtain ⟨r', hat', hrun⟩ := F.skip_run hus hc hlen hcur
  refine ⟨r', hat', ?_⟩
  rw [nextDigit, bind_of_ok hget, loop_eq]
  exact hrun

section
include F

theorem inType_run {t : CharType} (h : inTypeOf c = some t) (s : ScanState σ) : R.inType c s = .ok (t, s) := by
  rw [F.inType, h]
  rfl

theorem digVal_run {v : Int} (h : digValOf c = some v) (s : ScanState σ) : R.digVal c s = .ok (v, s) := by
  rw [F.digVal, h]
  rfl

theorem digVal_trap (h : digValOf c = none) (s : ScanState σ) : R.digVal c s = .error .table := by
  rw [F.digVal, h]
  rfl

theorem inType_trap (h : inTypeOf c = none) (s : ScanState σ) : R.inType c s = .error .table := by
  rw [F.inType, h]
  rfl

end

/-- A token that ends before `cs`, when the tables have its first character; else the tables are missed. A separator there
is read as a part of the token. -/
structure EndsWith (cs : List Int) (e : Option TokenError) (t : Token) (out : Except Trap (Pass × ScanState σ)) :
    Prop where
  ok : digValOf (cs.headD eof) = some 99 → ∃ s, out = .ok (.token t, s) ∧ s.bpException = e ∧
    (cs.headD eof ≠ intab.radix → s.lastc = cs.headD eof ∧ F.At s.source cs.tail)
  trap : digValOf (cs.headD eof) = none → out = .error .table

/-! ## Digits after a letter -/

theorem exists_underscores (s : List UInt8) : ∃ us s', s = us ++ s' ∧ (∀ b ∈ us, b = underscore) ∧
    (∀ b ∈ s'.head?, b ≠ underscore) ∧ ∀ base v, valueFrom base v s = valueFrom base v s' := by
  induction s with
  | nil => exact ⟨[], [], rfl, nofun, nofun, fun _ _ => rfl⟩
  | cons b s ih =>
    by_cases hb : b = underscore
    · obtain ⟨us, s', rfl, hus, hs', hval⟩ := ih
      refine ⟨b :: us, s', rfl, ?_, hs', fun base v => ?_⟩
      · intro d hd
        rcases mem_cons.1 hd with rfl | hd
        · exact hb
        · exact hus d hd
      · rw [hb]
        exact hval base v
    · exact ⟨[], b :: s, rfl, nofun, fun d hd => by cases hd; exact hb, fun _ _ => rfl⟩

section
variable {base v d : Nat} {b : UInt8} {t : List UInt8}

/-- The end of a round after a digit: on with `a`, or `tok`. -/
def baseTail {α : Type} (R : Reader σ) (base : Int) (a : α) (tok : Token) : Scan σ (α × Int ⊕ Pass) := do
  let c ← nextDigit R
  let v ← R.digVal c
  if v ≥ 0 ∧ v < base then pure (.inl (a, c))
  else if v < 99 then .inr <$> fail .integer
  else
    .inr <$> endToken c tok

theorem baseTail_run (a : α) (tok : Token) (hbase : base ≤ 16) (ht : IsDigits base t)
    (hat : F.At s.source (before t cs)) (hc : cs.headD eof ≠ ch '_') :
    (∃ b t' r, digitOf b ≠ none ∧ IsDigits base (b :: t') ∧ (∀ w, valueFrom base w t = valueFrom base w (b :: t')) ∧
      t'.length < t.length ∧ F.At r (before t' cs) ∧
      baseTail R base a tok s = .ok (.inl (a, (b.toNat : Int)), { s with source := r })) ∨
    ((∀ w, valueFrom base w t = w) ∧ (digValOf (cs.headD eof) = some 99 → ∃ r, F.At r cs.tail ∧
        baseTail R base a tok s = .ok (.inr (.token tok), ⟨r, cs.headD eof, s.bpException⟩)) ∧
      (digValOf (cs.headD eof) = none → baseTail R base a tok s = .error .table)) := by
  obtain ⟨us, t', rfl, hus, hfirst, hval⟩ := exists_underscores t
  rw [before, fileChars, List.map_append, append_assoc] at hat
  have hdigits : IsDigits base t' := fun b hb => ht b (mem_append_right _ hb)
  cases t' with
  | nil =>
    obtain ⟨r, hat', hnext⟩ := F.nextDigit_run cs hus hc hat
    refine .inr ⟨fun w => hval base w, fun he => ⟨r, hat', ?_⟩, fun he => ?_⟩
    · rw [baseTail, bind_of_ok hnext, bind_of_ok (F.digVal_run he _), if_neg (by omega), if_neg (by decide)]
      rfl
    · rw [baseTail, bind_of_ok hnext, bind_of_error (F.digVal_trap he _)]
  | cons b t' =>
    obtain ⟨d, hd, hb⟩ := (hdigits b mem_cons_self).resolve_left (hfirst b rfl)
    have hne : (b.toNat : Int) ≠ ch '_' := by
      intro h
      have hb95 : b = underscore := UInt8.toNat_inj.1 (Int.ofNat.inj h)
      exact hfirst b rfl hb95
    obtain ⟨r, hat', hnext⟩ := F.nextDigit_run (before (b :: t') cs) hus hne hat
    refine .inl ⟨b, t', r, by rw [hb]; nofun, hdigits, fun w => hval base w, ?_, hat', ?_⟩
    · rw [length_append, length_cons]
      omega
    · have hdb : ((d : Int) ≥ 0 ∧ (d : Int) < base) := by omega
      rw [baseTail, bind_of_ok hnext, before_cons, headD_cons, bind_of_ok (F.digVal_run (digValOf_digit hb) _),
        if_pos hdb]
      rfl

def baseBigintRound (R : Reader σ) (base : Int) : Term × Int → Scan σ (Term × Int ⊕ Pass) := fun (radInt, c) => do
  let v ← R.digVal c
  match bigintStep radInt base v with
  | .error e => .inr <$> fail (.arith e)
  | .ok radInt => baseTail R base radInt (.bigint radInt)

theorem scanBaseBigint_run (hbase : base ≤ 16) (hpos : 0 < base) (hc : cs.headD eof ≠ ch '_') :
    ∀ {fuel : Nat} {b : UInt8} {t : List UInt8} {u : Term} {v : Nat} {s : ScanState σ}, t.length < fuel →
      IsDigits base (b :: t) → digitOf b ≠ none → IsBigint u.toBigint v → 0 < v → F.At s.source (before t cs) →
      F.EndsWith cs s.bpException (.bigint (numberTerm (valueFrom base v (b :: t))))
        (rounds .rounds (baseBigintRound R base) fuel (u, (b.toNat : Int)) s) := by
  intro fuel
  induction fuel with
  | zero => exact fun h => absurd h (Nat.not_lt_zero _)
  | succ fuel ih =>
    intro b t u v s hfuel hdigits hb hu hv hat
    obtain ⟨d, hd⟩ := Option.ne_none_iff_exists'.1 hb
    have hstep := bigintStep_eq hu hv hpos d
    have hvpos : 0 < v * base + d := by positivity
    have hround : baseBigintRound R base (u, (b.toNat : Int)) s =
        baseTail R base (numberTerm (v * base + d : Nat)) (.bigint (numberTerm (v * base + d : Nat))) s := by
      rw [baseBigintRound, bind_of_ok (F.digVal_run (digValOf_digit hd) s), hstep]
    rw [valueFrom_cons_digit hd]
    rcases F.baseTail_run _ _ hbase (fun x hx => hdigits x (mem_cons_of_mem _ hx)) hat hc with
      ⟨b', t', r, hb', hdigits', hval', hlen, hat', hbody⟩ | ⟨hval', hok, htrap⟩
    · rw [rounds_of_inl (hround.trans hbody), hval']
      exact ih (s := { s with source := r }) (by omega) hdigits' hb' (isBigint_numberTerm (v * base + d)) hvpos hat'
    · rw [hval']
      refine ⟨fun he => ?_, fun he => ?_⟩
      · obtain ⟨r, hat', hbody⟩ := hok he
        exact ⟨_, rounds_of_inr (hround.trans hbody), rfl, fun _ => ⟨rfl, hat'⟩⟩
      · exact rounds_of_error (hround.trans (htrap he))

def baseDigitsRound (R : Reader σ) (base : Int) : Int × Int → Scan σ (Int × Int ⊕ Pass) := fun (oldv, c) => do
  let v ← R.digVal c
  let newv := bplong (oldv * base + v)
  if wordFull oldv newv then .inr <$> scanBaseBigint R base (.bigint (bpIntToBigint oldv)) c
  else baseTail R base newv (.rdigit newv)

theorem numberToken_of_le {v : Nat} (h : (v : Int) ≤ bpMaxint1W) : numberToken v = .rdigit v := if_pos h

theorem numberToken_of_lt {v : Nat} (h : bpMaxint1W < (v : Int)) : numberToken v = .bigint (numberTerm v) :=
  if_neg (not_le.2 h)

section
variable (hbase : base ≤ 16) (hpos : 0 < base) (hc : cs.headD eof ≠ ch '_')
include hbase hpos hc

theorem scanBaseDigits_run : ∀ {fuel : Nat} {b : UInt8} {t : List UInt8} {v : Nat} {s : ScanState σ}, t.length < fuel →
      IsDigits base (b :: t) → digitOf b ≠ none → (v : Int) ≤ bpMaxint1W → F.At s.source (before t cs) →
      F.EndsWith cs s.bpException (numberToken (valueFrom base v (b :: t)))
        (rounds .rounds (baseDigitsRound R base) fuel ((v : Int), (b.toNat : Int)) s) := by
  intro fuel
  induction fuel with
  | zero => exact fun h => absurd h (Nat.not_lt_zero _)
  | succ fuel ih =>
    intro b t v s hfuel hdigits hb hv hat
    obtain ⟨d, hd⟩ := Option.ne_none_iff_exists'.1 hb
    obtain ⟨hword, hfull⟩ := wordFull_iff hv hpos hbase (hdigits.head_lt hd)
    have hround : baseDigitsRound R base ((v : Int), (b.toNat : Int)) s =
        (if wordFull v (bplong (v * base + d)) then .inr <$> scanBaseBigint R base (.bigint (bpIntToBigint v)) b.toNat
          else baseTail R base (bplong (v * base + d)) (.rdigit (bplong (v * base + d)))) s := by
      rw [baseDigitsRound, bind_of_ok (F.digVal_run (digValOf_digit hd) s)]
    by_cases hover : bpMaxint1W < (v * base + d : Nat)
    · rw [if_pos (hfull.2 hover)] at hround
      have hvpos : 0 < v := by
        by_contra h0
        have hd16 := (digitOf_lt hd).2
        obtain rfl : v = 0 := by omega
        unfold bpMaxint1W at hover
        omega
      have hbig : bpMaxint1W < (valueFrom base v (b :: t) : Int) := by
        rw [valueFrom_cons_digit hd]
        exact lt_of_lt_of_le hover (Int.ofNat_le.2 (le_valueFrom hpos _ t))
      have hlen : t.length < R.room s.source + 2 := by
        rw [F.room hat, length_append, fileChars, length_map]
        omega
      rw [numberToken_of_lt hbig]
      obtain ⟨hok, htrap⟩ := F.scanBaseBigint_run hbase hpos hc hlen hdigits hb (isBigint_word v) hvpos hat
      refine ⟨fun he => ?_, fun he => ?_⟩
      · obtain ⟨s', hrun, hafter⟩ := hok he
        exact ⟨s', rounds_of_inr (hround.trans (map_of_ok hrun)), hafter⟩
      · exact rounds_of_error (hround.trans (map_of_error (htrap he)))
    · rw [if_neg (hfull.not.2 hover), hword] at hround
      rw [valueFrom_cons_digit hd]
      rcases F.baseTail_run _ _ hbase (fun x hx => hdigits x (mem_cons_of_mem _ hx)) hat hc with
        ⟨b', t', r, hb', hdigits', hval', hlen, hat', hbody⟩ | ⟨hval', hok, htrap⟩
      · rw [rounds_of_inl (hround.trans hbody), hval']
        exact ih (s := { s with source := r }) (by omega) hdigits' hb' (not_lt.1 hover) hat'
      · rw [hval', numberToken_of_le (not_lt.1 hover)]
        refine ⟨fun he => ?_, fun he => ?_⟩
        · obtain ⟨r, hat', hbody⟩ := hok he
          exact ⟨_, rounds_of_inr (hround.trans hbody), rfl, fun _ => ⟨rfl, hat'⟩⟩
        · exact rounds_of_error (hround.trans (htrap he))

theorem scanBase_run {b : UInt8} {t : List UInt8}
    (hdigits : IsDigits base (b :: t)) (hb : digitOf b ≠ none) (hat : F.At s.source (before (b :: t) cs)) :
    F.EndsWith cs s.bpException (numberToken (valueFrom base 0 (b :: t))) (scanBase R base s) := by
  obtain ⟨d, hd⟩ := Option.ne_none_iff_exists'.1 hb
  obtain ⟨r, hcur, -, hget⟩ := F.getc_cur hat
  have hlt := hdigits.head_lt hd
  have hne : (b.toNat : Int) ≠ ch '_' := by
    intro h
    obtain rfl : b = underscore := UInt8.toNat_inj.1 (Int.ofNat.inj h)
    cases hd
  have hgo : ¬ ((d : Int) < 0 ∨ (d : Int) ≥ base ∨ (b.toNat : Int) = ch '_') := by
    rintro (h | h | h)
    · omega
    · omega
    · exact hne h
  have hlen : t.length < R.room r + 2 := by
    rw [F.room hcur.2, before_cons, tail_cons, length_append, fileChars, length_map]
    omega
  have hrun := F.scanBaseDigits_run (s := { s with source := r }) (v := 0) hbase hpos hc hlen hdigits hb (by decide)
    hcur.2
  rw [scanBase, bind_of_ok hget, before_cons, headD_cons, bind_of_ok (F.digVal_run (digValOf_digit hd) _), if_neg hgo]
  exact hrun

end

/-! ## Digits after a radix -/

theorem endRadix_run (tok : Token) (hcur : F.Cur cs c s) :
    ∃ s', endRadix R tok c s = .ok (.token tok, s') ∧ s'.bpException = s.bpException ∧
      (cs.headD eof ≠ intab.radix → s'.lastc = cs.headD eof ∧ F.At s'.source cs.tail) := by
  obtain ⟨rfl, hat⟩ := hcur
  unfold endRadix
  split_ifs with h
  · obtain ⟨r, -, -, hget⟩ := F.getc_cur hat
    refine ⟨⟨r, cs.tail.headD eof, s.bpException⟩, ?_, rfl, fun hne => absurd h hne⟩
    rw [bind_of_ok hget]
    rfl
  · exact ⟨_, rfl, rfl, fun _ => ⟨rfl, hat⟩⟩

def radixBigintRound (R : Reader σ) (d : Int) : Term × Int → Scan σ (Term × Int ⊕ Pass) := fun (radInt, c) => do
  let v ← R.digVal c
  if v < 99 then
    if c ≠ ch '_' then
      if v ≥ d then .inr <$> fail .intOverflow
      else match bigintStep radInt d v with
        | .error e => .inr <$> fail (.arith e)
        | .ok radInt =>
          let c ← R.getc
          pure (.inl (radInt, c))
    else
      let c ← R.getc
      pure (.inl (radInt, c))
  else .inr <$> endRadix R (.bigint radInt) c

def radixDigitsRound (R : Reader σ) (d : Int) : Int × Int → Scan σ (Int × Int ⊕ Pass) := fun (oldv, c) => do
  let v ← R.digVal c
  if v < 99 then
    if c ≠ ch '_' then
      if v ≥ d then .inr <$> fail R.radixError
      else
        let newv := bplong (oldv * d + v)
        if wordFull oldv newv then .inr <$> scanRadixBigint R d (.bigint (bpIntToBigint oldv)) c
        else
          let c ← R.getc
          pure (.inl (newv, c))
    else
      let c ← R.getc
      pure (.inl (oldv, c))
  else .inr <$> endRadix R (.rdigit oldv) c

theorem digit_ne_underscore {b : UInt8} {d : Nat} (h : digitOf b = some d) : (b.toNat : Int) ≠ ch '_' := by
  intro hc
  obtain rfl : b = underscore := UInt8.toNat_inj.1 (Int.ofNat.inj hc)
  cases h

theorem underscore_char : (underscore.toNat : Int) = ch '_' := rfl

theorem digitsEnd_run {body : α → Scan σ (α ⊕ Pass)} {a : α} {tok : Token} {k : Int → Scan σ (α ⊕ Pass)}
    (fuel : Nat) (hcur : F.Cur cs c s)
    (hbody : body a = R.digVal c >>= fun v => if v < 99 then k v else .inr <$> endRadix R tok c) :
    F.EndsWith cs s.bpException tok (rounds .rounds body (fuel + 1) a s) := by
  refine ⟨fun he => ?_, fun he => ?_⟩
  · obtain ⟨s', hrun, hafter⟩ := F.endRadix_run tok hcur
    refine ⟨s', rounds_of_inr ?_, hafter⟩
    rw [hbody, bind_of_ok (F.digVal_run (hcur.1 ▸ he) s), if_neg (by decide)]
    exact map_of_ok hrun
  · apply rounds_of_error
    rw [hbody]
    exact bind_of_error (F.digVal_trap (hcur.1 ▸ he) s)

theorem radixBigintRound_digit {b : UInt8} {u : Term} {v d : Nat} {t : List UInt8} (hd : digitOf b = some d)
    (hlt : d < base) (hu : IsBigint u.toBigint v) (hv : 0 < v) (hat : F.At s.source (before t cs)) :
    ∃ r c', F.Cur (before t cs) c' { s with source := r } ∧ radixBigintRound R base (u, (b.toNat : Int)) s =
        .ok (.inl (numberTerm (v * base + d : Nat), c'), { s with source := r }) := by
  have hd16 := (digitOf_lt hd).2
  obtain ⟨r, hcur, -, hget⟩ := F.getc_cur hat
  refine ⟨r, _, hcur, ?_⟩
  rw [radixBigintRound, bind_of_ok (F.digVal_run (digValOf_digit hd) s), if_pos (by omega),
    if_pos (digit_ne_underscore hd), if_neg (by omega), bigintStep_eq hu hv (by omega) d]
  exact bind_of_ok hget

theorem radixBigint_run : ∀ {fuel : Nat} {t : List UInt8} {v : Nat} {c : Int} {s : ScanState σ}, t.length < fuel →
    IsDigits base t → 0 < v → F.Cur (before t cs) c s →
    F.EndsWith cs s.bpException (.bigint (numberTerm (valueFrom base v t)))
      (rounds .rounds (radixBigintRound R base) fuel (numberTerm v, c) s) := by
  intro fuel
  induction fuel with
  | zero => exact fun h => absurd h (Nat.not_lt_zero _)
  | succ fuel ih =>
    intro t v c s hfuel hdigits hv hcur
    cases t with
    | nil => exact F.digitsEnd_run fuel hcur rfl
    | cons b t =>
      obtain ⟨rfl, hat⟩ := hcur
      have hlen : t.length < fuel := Nat.lt_of_succ_lt_succ hfuel
      have hrest : IsDigits base t := fun x hx => hdigits x (mem_cons_of_mem _ hx)
      rw [before_cons, headD_cons]
      rcases hdigits b mem_cons_self with rfl | ⟨d, hlt, hd⟩
      · obtain ⟨r, hcur, -, hget⟩ := F.getc_cur (show F.At s.source (before t cs) from hat)
        have hround : radixBigintRound R base (numberTerm v, (underscore.toNat : Int)) s =
            .ok (.inl (numberTerm v, (before t cs).headD eof), { s with source := r }) := by
          rw [radixBigintRound, bind_of_ok (F.digVal_run (show digValOf underscore.toNat = some 0 from rfl) s),
            if_pos (by decide), if_neg (not_not.2 underscore_char)]
          exact bind_of_ok hget
        rw [rounds_of_inl hround, valueFrom_cons_underscore]
        exact ih (s := { s with source := r }) hlen hrest hv hcur
      · obtain ⟨r, c', hcur, hround⟩ := F.radixBigintRound_digit hd hlt (isBigint_numberTerm v) hv hat
        rw [rounds_of_inl hround, valueFrom_cons_digit hd]
        have hpos : 0 < v * base + d := Nat.add_pos_left (Nat.mul_pos hv (by omega)) d
        exact ih (s := { s with source := r }) hlen hrest hpos hcur

theorem radixDigits_run (hbase : base ≤ 16) : ∀ {fuel : Nat} {t : List UInt8} {v : Nat} {c : Int} {s : ScanState σ},
    t.length < fuel → IsDigits base t → (v : Int) ≤ bpMaxint1W → F.Cur (before t cs) c s →
    F.EndsWith cs s.bpException (numberToken (valueFrom base v t))
      (rounds .rounds (radixDigitsRound R base) fuel ((v : Int), c) s) := by
  intro fuel
  induction fuel with
  | zero => exact fun h => absurd h (Nat.not_lt_zero _)
  | succ fuel ih =>
    intro t v c s hfuel hdigits hv hcur
    cases t with
    | nil =>
      rw [show valueFrom base v [] = v from rfl, numberToken_of_le hv]
      exact F.digitsEnd_run fuel hcur rfl
    | cons b t =>
      obtain ⟨rfl, hat⟩ := hcur
      have hlen : t.length < fuel := Nat.lt_of_succ_lt_succ hfuel
      have hrest : IsDigits base t := fun x hx => hdigits x (mem_cons_of_mem _ hx)
      obtain ⟨r, hcur, -, hget⟩ := F.getc_cur (show F.At s.source (before t cs) from hat)
      rw [before_cons, headD_cons]
      rcases hdigits b mem_cons_self with rfl | ⟨d, hlt, hd⟩
      · have hround : radixDigitsRound R base ((v : Int), (underscore.toNat : Int)) s =
            .ok (.inl ((v : Int), (before t cs).headD eof), { s with source := r }) := by
          rw [radixDigitsRound, bind_of_ok (F.digVal_run (show digValOf underscore.toNat = some 0 from rfl) s),
            if_pos (by decide), if_neg (not_not.2 underscore_char)]
          exact bind_of_ok hget
        rw [rounds_of_inl hround, valueFrom_cons_underscore]
        exact ih (s := { s with source := r }) hlen hrest hv hcur
      · have hd16 := (digitOf_lt hd).2
        obtain ⟨hword, hfull⟩ := wordFull_iff hv (by omega : 0 < base) hbase hlt
        have hround : radixDigitsRound R base ((v : Int), (b.toNat : Int)) s =
            (if wordFull v (bplong (v * base + d)) then
              .inr <$> scanRadixBigint R base (.bigint (bpIntToBigint v)) b.toNat
            else do
              let c ← R.getc
              pure (.inl (bplong (v * base + d), c)) : Scan σ (Int × Int ⊕ Pass)) s := by
          rw [radixDigitsRound, bind_of_ok (F.digVal_run (digValOf_digit hd) s), if_pos (by omega),
            if_pos (digit_ne_underscore hd), if_neg (by omega)]
        rw [valueFrom_cons_digit hd]
        by_cases hover : bpMaxint1W < (v * base + d : Nat)
        · rw [if_pos (hfull.2 hover)] at hround
          have hvpos : 0 < v := by
            by_contra h0
            obtain rfl : v = 0 := by omega
            unfold bpMaxint1W at hover
            omega
          have hpos : 0 < v * base + d := Nat.add_pos_left (Nat.mul_pos hvpos (by omega)) d
          have hroom : t.length < R.room s.source + 1 := by
            rw [F.room hat, before_cons, tail_cons, length_append, fileChars, length_map]
            omega
          obtain ⟨r', c', hcur', hfirst⟩ := F.radixBigintRound_digit hd hlt (isBigint_word v) hvpos hat
          obtain ⟨hok, htrap⟩ := F.radixBigint_run (s := { s with source := r' }) hroom hrest hpos hcur'
          have hbig : scanRadixBigint R base (.bigint (bpIntToBigint v)) b.toNat s =
              rounds .rounds (radixBigintRound R base) (R.room s.source + 1) (numberTerm (v * base + d : Nat), c')
                { s with source := r' } := rounds_of_inl hfirst
          rw [numberToken_of_lt (lt_of_lt_of_le hover (Int.ofNat_le.2 (le_valueFrom (by omega) _ t)))]
          refine ⟨fun he => ?_, fun he => ?_⟩
          · obtain ⟨s', hrun, hafter⟩ := hok he
            exact ⟨s', rounds_of_inr (hround.trans (map_of_ok (hbig.trans hrun))), hafter⟩
          · exact rounds_of_error (hround.trans (map_of_error (hbig.trans (htrap he))))
        · rw [if_neg (hfull.not.2 hover), hword, bind_of_ok hget] at hround
          rw [rounds_of_inl hround]
          exact ih (s := { s with source := r }) hlen hrest (not_lt.1 hover) hcur

/-! ## Stored digits -/

def digitsRound (R : Reader σ) : List UInt8 × Int → Scan σ (List UInt8 × Int ⊕ List UInt8 × Int) := fun (s, c) => do
  let t ← R.inType c
  if t = .digit ∨ c = ch '_' then
    let s ← putDigit s c
    let c ← R.getc
    pure (.inl (s, c))
  else pure (.inr (s, c))

theorem putDigit_underscore (a : List UInt8) (s : ScanState σ) : putDigit a underscore.toNat s = .ok (a, s) := by
  rw [putDigit, if_neg (not_not.2 underscore_char)]
  rfl

theorem putDigit_digit {b : UInt8} {d : Nat} (h : digitOf b = some d) (a : List UInt8) (s : ScanState σ) :
    putDigit a b.toNat s = if a.length < maxStrLen then .ok (a ++ [b], s) else .error .buffer := by
  rw [putDigit, if_pos (digit_ne_underscore h), putChar, toBYTE_toNat]
  split_ifs <;> rfl

theorem digitsRounds_run (htype : inTypeOf (cs.headD eof) ≠ some .digit) (hc : cs.headD eof ≠ ch '_') :
    ∀ {fuel : Nat} {t a : List UInt8} {c : Int} {s : ScanState σ}, t.length < fuel → IsDigits 10 t →
      a.length ≤ maxStrLen → (t = [] → cs ≠ [] → F.Back s.source) → F.Cur (before t cs) c s →
      (a.length + (storedDigits t).length ≤ maxStrLen →
        (inTypeOf (cs.headD eof) = none → rounds .rounds (digitsRound R) fuel (a, c) s = .error .table) ∧
        (inTypeOf (cs.headD eof) ≠ none → ∃ r, F.At r cs.tail ∧ (cs ≠ [] → F.Back r) ∧
          rounds .rounds (digitsRound R) fuel (a, c) s =
            .ok ((a ++ storedDigits t, cs.headD eof), { s with source := r }))) ∧
      (maxStrLen < a.length + (storedDigits t).length →
        rounds .rounds (digitsRound R) fuel (a, c) s = .error .buffer) := by
  intro fuel
  induction fuel with
  | zero => exact fun h => absurd h (Nat.not_lt_zero _)
  | succ fuel ih =>
    intro t a c s hfuel hdigits ha hback hcur
    obtain ⟨rfl, hat⟩ := hcur
    cases t with
    | nil =>
      have hstop : ¬ (inTypeOf (cs.headD eof) = some .digit ∨ cs.headD eof = ch '_') := by
        rw [not_or]
        exact ⟨htype, hc⟩
      refine ⟨fun _ => ⟨fun hnone => ?_, fun hsome => ?_⟩, fun hlt => absurd ha (by simpa using hlt)⟩
      · exact rounds_of_error (bind_of_error (F.inType_trap hnone s))
      · obtain ⟨tp, htp⟩ := Option.ne_none_iff_exists'.1 hsome
        refine ⟨s.source, hat, hback rfl, rounds_of_inr ?_⟩
        rw [digitsRound, bind_of_ok (F.inType_run (show inTypeOf ((before [] cs).headD eof) = some tp from htp) s),
          if_neg, storedDigits, filter_nil, append_nil]
        · rfl
        · rintro (h | h)
          · exact htype (h ▸ htp)
          · exact hc h
    | cons b t =>
      have hlen : t.length < fuel := Nat.lt_of_succ_lt_succ hfuel
      have hrest : IsDigits 10 t := fun x hx => hdigits x (mem_cons_of_mem _ hx)
      obtain ⟨r, hcur, hback', hget⟩ := F.getc_cur (show F.At s.source (before t cs) from hat)
      have hback' : t = [] → cs ≠ [] → F.Back r := fun ht hcs => hback' (.inl (by rw [ht]; exact hcs))
      rw [before_cons, headD_cons]
      rcases hdigits b mem_cons_self with rfl | ⟨d, hlt, hd⟩
      · have hround : digitsRound R (a, (underscore.toNat : Int)) s =
            .ok (.inl (a, (before t cs).headD eof), { s with source := r }) := by
          rw [digitsRound, bind_of_ok (F.inType_run (show inTypeOf underscore.toNat = some .brk from rfl) s),
            if_pos (.inr underscore_char), bind_of_ok (putDigit_underscore a s), bind_of_ok hget]
          rfl
        have hstored : storedDigits (underscore :: t) = storedDigits t := rfl
        rw [rounds_of_inl hround, hstored]
        exact ih (s := { s with source := r }) hlen hrest ha hback' hcur
      · have hstored : storedDigits (b :: t) = b :: storedDigits t := by
          have hne : b ≠ underscore := fun h => digit_ne_underscore hd (h ▸ underscore_char)
          exact filter_cons_of_pos (by simpa using hne)
        have hround : digitsRound R (a, (b.toNat : Int)) s =
            (if a.length < maxStrLen then .ok (.inl (a ++ [b], (before t cs).headD eof), { s with source := r })
              else .error .buffer) := by
          rw [digitsRound, bind_of_ok (F.inType_run (inTypeOf_digit hd hlt) s), if_pos (.inl rfl)]
          have hput := putDigit_digit hd a s
          split_ifs at hput ⊢ with hroom
          · rw [bind_of_ok hput, bind_of_ok hget]
            rfl
          · exact bind_of_error hput
        rw [hstored, length_cons]
        split_ifs at hround with hroom
        · rw [rounds_of_inl hround]
          have hrec := ih (a := a ++ [b]) (s := { s with source := r }) hlen hrest
            (by rw [length_append]; exact hroom) hback' hcur
          rw [length_append, length_singleton, append_assoc, singleton_append, Nat.add_right_comm,
            Nat.add_assoc] at hrec
          exact hrec
        · exact ⟨fun hle => absurd hle (by omega), fun _ => rounds_of_error hround⟩

variable (cs) in
theorem scanDigits_run {t : List UInt8} (htype : inTypeOf (cs.headD eof) ≠ some .digit) (hc : cs.headD eof ≠ ch '_')
    (hdigits : IsDigits 10 t) (ha : a.length ≤ maxStrLen) (hback : t = [] → cs ≠ [] → F.Back s.source)
    (hcur : F.Cur (before t cs) c s) :
    (a.length + (storedDigits t).length ≤ maxStrLen →
      (inTypeOf (cs.headD eof) = none → scanDigits R a c s = .error .table) ∧
      (inTypeOf (cs.headD eof) ≠ none → ∃ r, F.At r cs.tail ∧ (cs ≠ [] → F.Back r) ∧
        scanDigits R a c s = .ok ((a ++ storedDigits t, cs.headD eof), { s with source := r }))) ∧
    (maxStrLen < a.length + (storedDigits t).length → scanDigits R a c s = .error .buffer) := by
  have hlen : t.length < R.room s.source + 2 := by
    rw [F.room hcur.2, length_tail, length_append, fileChars, length_map]
    omega
  exact F.digitsRounds_run htype hc hlen hdigits ha hback hcur

/-- The characters after a decimal do not go on with it. -/
structure EndsDecimal (eof : Int) (cs : List Int) : Prop where
  type : inTypeOf (cs.headD eof) ≠ some .digit
  underscore : cs.headD eof ≠ ch '_'
  radix : cs.headD eof ≠ intab.radix
  point : cs.headD eof = intab.dpoint → inTypeOf (cs.tail.headD eof) ≠ some .digit

/-- The tables have the characters after a decimal that are looked at. -/
def TablesHave (eof : Int) (cs : List Int) : Prop :=
  inTypeOf (cs.headD eof) ≠ none ∧ (cs.headD eof = intab.dpoint → inTypeOf (cs.tail.headD eof) ≠ none)

include F in
theorem eof_ne_point : eof ≠ intab.dpoint := by
  rcases F.eof_cases with h | h <;> rw [h] <;> decide

theorem endDigits_run (h : a.length < maxStrLen) (c : Int) (s : ScanState σ) :
    endDigits a c s = .ok (.token (.digit a), { s with lastc := c }) := by
  rw [endDigits, putEnd, if_pos h]
  rfl

theorem endDigits_trap (h : maxStrLen ≤ a.length) (c : Int) (s : ScanState σ) : endDigits a c s = .error .buffer := by
  rw [endDigits, putEnd, if_neg (not_lt.2 h)]
  rfl

/-- The rest of a decimal: the token, or nothing when the buffer is full or the tables are missed. -/
theorem scanNumber_decimal {t : List UInt8} (hends : EndsDecimal eof cs) (hdigits : IsDigits 10 t)
    (ha : a.length ≤ maxStrLen) (hback : t = [] → cs ≠ [] → F.Back s.source) (hcur : F.Cur (before t cs) c s) :
    (a.length + (storedDigits t).length < maxStrLen → TablesHave eof cs → ∃ s',
      scanNumber R a c s = .ok (.token (.digit (a ++ storedDigits t)), s') ∧ s'.bpException = s.bpException ∧
        s'.lastc = cs.headD eof) ∧
    (¬ (a.length + (storedDigits t).length < maxStrLen ∧ TablesHave eof cs) → ∃ e, scanNumber R a c s = .error e) := by
  obtain ⟨hfit, hfull⟩ := F.scanDigits_run _ hends.type hends.underscore hdigits ha hback hcur
  have hstored : (a ++ storedDigits t).length = a.length + (storedDigits t).length := length_append ..
  by_cases hlen : maxStrLen < a.length + (storedDigits t).length
  · exact ⟨fun hlt => absurd hlt (by omega), fun _ => ⟨_, bind_of_error (hfull hlen)⟩⟩
  obtain ⟨hnone, hsome⟩ := hfit (not_lt.1 hlen)
  by_cases htype : inTypeOf (cs.headD eof) = none
  · exact ⟨fun _ htables => absurd htype htables.1, fun _ => ⟨_, bind_of_error (hnone htype)⟩⟩
  obtain ⟨r, hat, hbackr, hrun⟩ := hsome htype
  have hstart : scanNumber R a c s = (if cs.headD eof = intab.dpoint then do
      let d ← R.getc
      let t' ← R.inType d
      if t' = .digit then scanReal R (a ++ storedDigits t) d
      else
        R.ungetc d
        endDigits (a ++ storedDigits t) (cs.headD eof)
    else endDigits (a ++ storedDigits t) (cs.headD eof)) { s with source := r } := by
    rw [scanNumber, bind_of_ok hrun]
    dsimp only
    rw [if_neg hends.radix]
  rw [hstart]
  by_cases hpoint : cs.headD eof = intab.dpoint
  · rw [if_pos hpoint]
    have hne : cs ≠ [] := by
      rintro rfl
      exact F.eof_ne_point hpoint
    obtain ⟨r', -, hback', hget⟩ := F.getc_cur (s := { s with source := r }) hat
    rw [bind_of_ok hget]
    by_cases htype' : inTypeOf (cs.tail.headD eof) = none
    · exact ⟨fun _ htables => absurd htype' (htables.2 hpoint), fun _ => ⟨_, bind_of_error (F.inType_trap htype' _)⟩⟩
    · obtain ⟨tp, htp⟩ := Option.ne_none_iff_exists'.1 htype'
      obtain ⟨r'', hunget⟩ := F.ungetc (s := { s with source := r' }) (cs.tail.headD eof) (hback' (.inr (hbackr hne)))
      rw [bind_of_ok (F.inType_run htp _), if_neg (fun h : tp = .digit => hends.point hpoint (by rw [htp, h])),
        bind_of_ok hunget]
      by_cases hroom : a.length + (storedDigits t).length < maxStrLen
      · exact ⟨fun _ _ => ⟨_, endDigits_run (by omega) _ _, rfl, rfl⟩,
          fun hnot => absurd ⟨hroom, htype, fun _ => htype'⟩ hnot⟩
      · exact ⟨fun h => absurd h hroom, fun _ => ⟨_, endDigits_trap (by omega) _ _⟩⟩
  · rw [if_neg hpoint]
    by_cases hroom : a.length + (storedDigits t).length < maxStrLen
    · exact ⟨fun _ _ => ⟨_, endDigits_run (by omega) _ _, rfl, rfl⟩,
        fun hnot => absurd ⟨hroom, htype, fun h => absurd h hpoint⟩ hnot⟩
    · exact ⟨fun h => absurd h hroom, fun _ => ⟨_, endDigits_trap (by omega) _ _⟩⟩

theorem scanNumber_radix {t u : List UInt8} {base : Nat} (hdigits : IsDigits 10 t) (ha : AllDigits a)
    (hlen : a.length ≤ maxStrLen) (hcur : F.Cur (before t (intab.radix :: before u cs)) c s)
    (hback : t = [] → F.Back s.source)
    (hbase : valueFrom 10 0 (a ++ storedDigits t) = base) (hpos : 0 < base) (hmax : base ≤ 16) (hu : IsDigits base u) :
    (a.length + (storedDigits t).length < maxStrLen →
      F.EndsWith cs s.bpException (numberToken (valueFrom base 0 u)) (scanNumber R a c s)) ∧
    (¬ a.length + (storedDigits t).length < maxStrLen → scanNumber R a c s = .error .buffer) := by
  obtain ⟨hfit, hfull⟩ := F.scanDigits_run (intab.radix :: before u cs) (t := t)
    (show inTypeOf intab.radix ≠ some .digit by decide) (show intab.radix ≠ ch '_' by decide) hdigits hlen
    (fun ht _ => hback ht) hcur
  have hstored : (a ++ storedDigits t).length = a.length + (storedDigits t).length := length_append ..
  by_cases hover : maxStrLen < a.length + (storedDigits t).length
  · exact ⟨fun hlt => absurd hlt (by omega), fun _ => bind_of_error (hfull hover)⟩
  obtain ⟨r, hat, -, hrun⟩ := (hfit (not_lt.1 hover)).2 (show inTypeOf intab.radix ≠ none by decide)
  have hstart : scanNumber R a c s = scanRadix R (a ++ storedDigits t) { s with source := r } := by
    rw [scanNumber, bind_of_ok hrun]
    exact congrFun (if_pos rfl) _
  rw [hstart, scanRadix]
  by_cases hroom : a.length + (storedDigits t).length < maxStrLen
  · refine ⟨fun _ => ?_, fun h => absurd hroom h⟩
    have hput : putEnd (a ++ storedDigits t) { s with source := r } = .ok ((), { s with source := r }) := by
      rw [putEnd, if_pos (by omega)]
      rfl
    have hall : AllDigits (a ++ storedDigits t) := fun b hb =>
      (mem_append.1 hb).elim (ha b) (allDigits_storedDigits hdigits b)
    have hradix : radixOf 0 (a ++ storedDigits t) = some (base : Int) := by
      have h := radixOf_eq hall (v := 0) (by omega)
      rwa [hbase, Nat.cast_zero] at h
    obtain ⟨r', hcur', -, hget⟩ := F.getc_cur (s := { s with source := r }) (show F.At r (before u cs) from hat)
    have hlen' : u.length < R.room r' + 2 := by
      rw [F.room hcur'.2, length_tail, length_append, fileChars, length_map]
      omega
    rw [bind_of_ok hput, hradix]
    dsimp only
    rw [if_neg (by omega), bind_of_ok hget]
    exact F.radixDigits_run (s := { s with source := r' }) (v := 0) hmax hlen' hu (by decide) hcur'
  · refine ⟨fun h => absurd h hroom, fun _ => bind_of_error ?_⟩
    rw [putEnd, if_neg (by omega)]
    rfl

end

end Feed

end Picat
