import Picat.Token.Quiet
import Picat.Token.NumberTokens

/-!
# Tokens and the length of `AtomStr`

* `scanName_iff`, `labSign_iff`, `caseDigit_iff` : names, symbols and numbers.
-/

namespace Picat
open Simulation List

variable {σ : Type}

/-! ## Lengths of tokens -/

def isNameChar (c : Int) : Bool := (inTypeOf c).any fun t => t.code ≤ CharType.lower.code

def isDigitChar (c : Int) : Bool := inTypeOf c = some .digit ∨ c = ch '_'

def isSignChar (c : Int) : Bool := inTypeOf c = some .sign

section
variable (eof : Int)

/-- The slot of the NUL, which is written once the tables have been asked for what follows. -/
def endSlot (cs : List Int) : Nat := if inTypeOf (cs.headD eof) = none then 0 else 1

def nameSlots (cs : List Int) : Nat := (cs.takeWhile isNameChar).length + endSlot eof (cs.dropWhile isNameChar)

/-- The digits that are stored of a sequence of digits and underscores. -/
def digitSlots (cs : List Int) : Nat := (cs.takeWhile isDigitChar).countP (· ≠ ch '_')

def exponentSlots (cs : List Int) : Nat :=
  if isDigitChar (cs.headD eof) then digitSlots cs + endSlot eof (cs.dropWhile isDigitChar) else 0

def afterFraction (cs : List Int) : Nat :=
  if cs.headD eof = ch 'e' ∨ cs.headD eof = ch 'E' then
    if cs.tail.headD eof = ch '-' then 2 + exponentSlots eof cs.tail.tail
    else if cs.tail.headD eof = ch '+' then 1 + exponentSlots eof cs.tail.tail
    else 1 + exponentSlots eof cs.tail
  else endSlot eof cs

/-- A real from its point on, where `cs` follows the point. -/
def fractionSlots (cs : List Int) : Nat := 1 + digitSlots cs + afterFraction eof (cs.dropWhile isDigitChar)

def afterDigits (cs : List Int) : Nat :=
  if cs.headD eof = intab.dpoint then
    if inTypeOf (cs.tail.headD eof) = some .digit then fractionSlots eof cs.tail else endSlot eof cs.tail
  else endSlot eof cs

/-- A number and its NUL; behind `0` and a letter nothing is stored. -/
def numberSlots (cs : List Int) : Nat :=
  if cs.headD eof = ch '0' ∧ baseOf (cs.tail.headD eof) ≠ none then 0
  else digitSlots cs + afterDigits eof (cs.dropWhile isDigitChar)

def signSlots (cs : List Int) : Nat := (cs.takeWhile isSignChar).length + endSlot eof (cs.dropWhile isSignChar)

/-- A symbol that begins with `c`, and its NUL; of a comment, `/` is stored. -/
def symbolSlots (c : Int) (cs : List Int) : Nat :=
  if c = intab.begcom ∧ cs.headD eof = intab.astcom then 1
  else if c = ch '.' ∧ cs.headD eof = ch '.' then
    if cs.tail.headD eof = ch '+' ∨ cs.tail.headD eof = ch '-' then 3 else 2 + signSlots eof cs.tail
  else if c = ch '#' ∧ cs.headD eof = ch '!' then 2 + signSlots eof cs.tail
  else 1 + signSlots eof cs

end

def codepointLength (d : Int) : Nat := (utf8CodepointToStr d).length

/-- A character for which there is room behind `n` others. -/
def FitsAt (n : Nat) (d : Int) : Prop := d ≤ 127 ∧ n < maxStrLen ∨ 127 < d ∧ n + 4 ≤ maxStrLen

/-- The characters of a quoted item from `s` on fill `AtomStr`, from its character `n` on; then the atom ends, or a further
character is one too many. -/
inductive Fills (R : Reader σ) (q : Int) : Nat → ScanState σ → Prop
  | char {n : Nat} {d : Int} {s t : ScanState σ} (hread : R.readUtf8Character q s = .ok (d, t)) (h0 : 0 ≤ d)
      (hexc : t.bpException = none) (hfit : FitsAt n d)
      (hrest : Fills R q (n + codepointLength d) t) : Fills R q n s
  | full {n : Nat} {d : Int} {s t : ScanState σ} (hfull : n = maxStrLen) (hread : R.readUtf8Character q s = .ok (d, t))
      (hmore : 0 ≤ d ∧ t.bpException = none →
        ∃ r, R.readUtf8Character q { t with bpException := some .tok2long } = .ok r) : Fills R q n s

/-- The token at `START`, with the character `c` before the characters `cs`, takes more slots than there are. -/
def TooLong (R : Reader σ) (eof c : Int) (cs : List Int) (s : ScanState σ) : Prop :=
  R.atNul c = false ∧ match inTypeOf c with
    | some .digit => maxStrLen < numberSlots eof (c :: cs)
    | some .brk | some .upper | some .lower => maxStrLen < nameSlots eof (c :: cs)
    | some .sign => maxStrLen < symbolSlots eof c cs
    | some .noble => cs.headD eof = ch '=' ∧ maxStrLen < symbolSlots eof c cs
    | some .atmqt => Fills R c 0 s
    | _ => False

/-! ## Loops that store characters -/

variable {again : Prop} {t : CharType} {a : List UInt8}

section
variable {src : Source σ} {eof : Int} (F : Feed src eof) {γ : Type} {mk : List UInt8 → Int → γ} {p keep : Int → Bool}
  {body : γ → Scan σ (γ ⊕ List UInt8 × Int)} {cs : List Int}

def stored (keep : Int → Bool) (a : List UInt8) (c : Int) : List UInt8 := if keep c then a ++ [toBYTE c] else a

theorem length_stored (a : List UInt8) (c : Int) : (stored keep a c).length = a.length + [c].countP keep := by
  unfold stored
  cases h : keep c with
  | false => rw [if_neg Bool.false_ne_true, countP_singleton, h]; rfl
  | true => rw [if_pos rfl, countP_singleton, h, length_append]; rfl

/-- What a loop over characters comes to, `k` of which are stored behind `n` others: an overflow, or a look at what
follows. -/
structure Stores (cs : List Int) (n k : Nat) (again : Prop) (out : Except Trap ((List UInt8 × Int) × ScanState σ)) : Prop where
  overflow : maxStrLen < n + k → out = .error .buffer
  missed : n + k ≤ maxStrLen → inTypeOf (cs.headD eof) = none → out = .error .table
  ok : n + k ≤ maxStrLen → inTypeOf (cs.headD eof) ≠ none → ∃ a s, a.length = n + k ∧ F.At s.source cs.tail ∧
    (again → F.Back s.source) ∧ out = .ok ((a, cs.headD eof), s)

theorem Stores.shift {n j k : Nat} {out : Except Trap ((List UInt8 × Int) × ScanState σ)}
    (h : Stores F cs (n + j) k again out) : Stores F cs n (j + k) again out := by
  obtain ⟨hover, hmiss, hok⟩ := h
  rw [Nat.add_assoc] at hover hmiss hok
  exact ⟨hover, hmiss, hok⟩

variable (mk p keep body) in
/-- A loop that asks for the type of a character, stores it and reads the next one, while `p` holds of it. -/
theorem while_run (hagain : again → cs ≠ []) (hmiss : ∀ a c s, inTypeOf c = none → body (mk a c) s = .error .table)
    (hstop : ∀ a c s, inTypeOf c ≠ none → p c = false → body (mk a c) s = .ok (.inr (a, c), s))
    (hfull : ∀ a c s, p c = true → keep c = true → maxStrLen ≤ a.length → body (mk a c) s = .error .buffer)
    (hgo : ∀ a c s, p c = true → (keep c = true → a.length < maxStrLen) → ∃ e, body (mk a c) s = (do
        let c' ← src.getc
        pure (.inl (mk (stored keep a c) c')) : Scan σ (γ ⊕ List UInt8 × Int)) { s with bpException := e })
    (hend : p (cs.headD eof) = false) :
    ∀ {fuel : Nat} {run : List Int} {a : List UInt8} {c : Int} {s : ScanState σ}, run.length < fuel →
      (∀ x ∈ run, p x = true) → a.length ≤ maxStrLen → (run = [] → again → F.Back s.source) → F.Cur (run ++ cs) c s →
      Stores F cs a.length (run.countP keep) again (rounds .rounds body fuel (mk a c) s) := by
  intro fuel
  induction fuel with
  | zero => exact fun h => absurd h (Nat.not_lt_zero _)
  | succ fuel ih =>
    intro run a c s hfuel hrun ha hback hcur
    obtain ⟨rfl, hat⟩ := hcur
    cases run with
    | nil =>
      refine ⟨fun h => absurd ha (not_le.2 (by simpa using h)), fun _ hnone => ?_, fun _ hsome => ?_⟩
      · exact rounds_of_error (hmiss a _ s hnone)
      · exact ⟨a, s, rfl, hat, hback rfl, rounds_of_inr (hstop a _ s hsome hend)⟩
    | cons x run =>
      have hx : p x = true := hrun x mem_cons_self
      obtain ⟨r, hcur, hback', hget⟩ := F.getc_cur (show F.At s.source (run ++ cs) from hat)
      have hcount : (x :: run).countP keep = [x].countP keep + run.countP keep := by
        rw [← countP_append]
        rfl
      show Stores F cs a.length ((x :: run).countP keep) again (rounds .rounds body (fuel + 1) (mk a x) s)
      by_cases hroom : keep x = true → a.length < maxStrLen
      · obtain ⟨e, hgo⟩ := hgo a x s hx hroom
        obtain ⟨r', hcur', hback'', hget'⟩ := F.getc_cur (s := { s with bpException := e })
          (show F.At s.source (run ++ cs) from hat)
        rw [bind_of_ok hget'] at hgo
        have hlen : (stored keep a x).length ≤ maxStrLen := by
          rw [length_stored, countP_singleton]
          split_ifs with hkeep
          · exact hroom hkeep
          · exact ha
        have hrec := ih (s := ⟨r', s.lastc, e⟩) (Nat.lt_of_succ_lt_succ hfuel)
          (fun y hy => hrun y (mem_cons_of_mem _ hy)) hlen
          (fun _ hag => hback'' (.inl (append_ne_nil_of_right_ne_nil _ (hagain hag)))) hcur'
        rw [length_stored] at hrec
        rw [rounds_of_inl hgo, hcount]
        exact hrec.shift
      · push Not at hroom
        have hrounds : rounds .rounds body (fuel + 1) (mk a x) s = .error .buffer :=
          rounds_of_error (hfull a x s hx hroom.1 hroom.2)
        have hone : [x].countP keep = 1 := by rw [countP_singleton, if_pos hroom.1]
        exact ⟨fun _ => hrounds, fun h => absurd h (by omega), fun h => absurd h (by omega)⟩

variable (mk p keep body) in
/-- A loop that stores a character, reads the next one and asks for its type, while `p` holds of it. -/
theorem doWhile_run (hfull : ∀ a c s, keep c = true → maxStrLen ≤ a.length → body (mk a c) s = .error .buffer)
    (hgo : ∀ a c s, (keep c = true → a.length < maxStrLen) → body (mk a c) s = (do
        let c' ← src.getc
        let _ ← src.inType c'
        if p c' then pure (.inl (mk (stored keep a c) c')) else pure (.inr (stored keep a c, c')) :
          Scan σ (γ ⊕ List UInt8 × Int)) s)
    (hp : ∀ c, p c = true → inTypeOf c ≠ none) (hend : p (cs.headD eof) = false) :
    ∀ {fuel : Nat} {run : List Int} {a : List UInt8} {c : Int} {s : ScanState σ}, run.length < fuel →
      (∀ x ∈ run, p x = true) → a.length ≤ maxStrLen → F.At s.source (run ++ cs) →
      Stores F cs a.length ((c :: run).countP keep) False (rounds .rounds body fuel (mk a c) s) := by
  intro fuel
  induction fuel with
  | zero => exact fun h => absurd h (Nat.not_lt_zero _)
  | succ fuel ih =>
    intro run a c s hfuel hrun ha hat
    have hcount : (c :: run).countP keep = [c].countP keep + run.countP keep := by
      rw [← countP_append]
      rfl
    by_cases hroom : keep c = true → a.length < maxStrLen
    · have hlen : (stored keep a c).length ≤ maxStrLen := by
        rw [length_stored, countP_singleton]
        split_ifs with hkeep
        · exact hroom hkeep
        · exact ha
      have hgo := hgo a c s hroom
      obtain ⟨r, ⟨-, hat'⟩, -, hget⟩ := F.getc_cur hat
      rw [bind_of_ok hget] at hgo
      cases run with
      | nil =>
        rw [nil_append] at hgo hat'
        have hsum : (stored keep a c).length = a.length + [c].countP keep := length_stored a c
        rw [hsum] at hlen
        refine ⟨fun h => absurd hlen (not_le.2 h), fun _ hnone => ?_, fun _ hsome => ?_⟩
        · have hmiss : src.inType (cs.headD eof) { s with source := r } = .error .table := by
            rw [F.inType, hnone]
            rfl
          exact rounds_of_error (hgo.trans (bind_of_error hmiss))
        · obtain ⟨t, ht⟩ := Option.ne_none_iff_exists'.1 hsome
          have hlook : src.inType (cs.headD eof) { s with source := r } = .ok (t, { s with source := r }) := by
            rw [F.inType, ht]
            rfl
          rw [bind_of_ok hlook, hend] at hgo
          exact ⟨stored keep a c, { s with source := r }, hsum, hat', False.elim, rounds_of_inr hgo⟩
      | cons x run =>
        have hx : p x = true := hrun x mem_cons_self
        obtain ⟨t, ht⟩ := Option.ne_none_iff_exists'.1 (hp x hx)
        have hlook : src.inType x { s with source := r } = .ok (t, { s with source := r }) := by
          rw [F.inType, ht]
          rfl
        rw [cons_append, headD_cons, bind_of_ok hlook, hx] at hgo
        have hrec := ih (c := x) (s := { s with source := r }) (Nat.lt_of_succ_lt_succ hfuel)
          (fun y hy => hrun y (mem_cons_of_mem _ hy)) hlen hat'
        rw [length_stored] at hrec
        rw [rounds_of_inl hgo, hcount]
        exact hrec.shift
    · push Not at hroom
      have hrounds : rounds .rounds body (fuel + 1) (mk a c) s = .error .buffer :=
        rounds_of_error (hfull a c s hroom.1 hroom.2)
      have hone : [c].countP keep = 1 := by rw [countP_singleton, if_pos hroom.1]
      exact ⟨fun _ => hrounds, fun h => absurd h (by omega), fun h => absurd h (by omega)⟩

theorem Stores.bind_iff {n k slots : Nat} {m : Scan σ (List UInt8 × Int)} {s : ScanState σ} {β : Type}
    {f : List UInt8 × Int → Scan σ β} (h : Stores F cs n k again (m s))
    (hrest : ∀ a s', a.length = n + k → n + k ≤ maxStrLen → inTypeOf (cs.headD eof) ≠ none → F.At s'.source cs.tail →
      (again → F.Back s'.source) → (f (a, cs.headD eof) s' = .error .buffer ↔ maxStrLen < n + k + slots))
    (hzero : inTypeOf (cs.headD eof) = none → slots = 0) :
    (m >>= f) s = .error .buffer ↔ maxStrLen < n + k + slots := by
  rcases lt_or_ge maxStrLen (n + k) with hover | hle
  · exact iff_of_true (bind_of_error (h.overflow hover)) (by omega)
  · by_cases hnone : inTypeOf (cs.headD eof) = none
    · rw [bind_of_error (h.missed hle hnone), hzero hnone]
      exact iff_of_false nofun (not_lt.2 hle)
    · obtain ⟨a, s', hlen, hat, hback, hrun⟩ := h.ok hle hnone
      rw [bind_of_ok hrun]
      exact hrest a s' hlen hle hnone hat hback

end

/-! ## Sequences of characters -/

section
variable {p : Int → Bool} {eof : Int}

theorem headD_dropWhile (heof : p eof = false) (cs : List Int) : p ((cs.dropWhile p).headD eof) = false := by
  induction cs with
  | nil => exact heof
  | cons c cs ih =>
    cases hc : p c with
    | true => rwa [dropWhile_cons_of_pos hc]
    | false =>
      rw [dropWhile_cons_of_neg (by rw [hc]; exact Bool.false_ne_true)]
      exact hc

theorem of_mem_takeWhile {cs : List Int} {c : Int} (h : c ∈ cs.takeWhile p) : p c = true :=
  (mem_takeWhile_imp h)

theorem endSlot_eq_one {cs : List Int} (h : inTypeOf (cs.headD eof) ≠ none) : endSlot eof cs = 1 := if_neg h

theorem endSlot_eq_zero {cs : List Int} (h : inTypeOf (cs.headD eof) = none) : endSlot eof cs = 0 := if_pos h

end

theorem isNameChar_of_type {c : Int} (h : inTypeOf c = some t) :
    isNameChar c = decide (t.code ≤ CharType.lower.code) := by
  rw [isNameChar, h]
  rfl

theorem inTypeOf_brk_iff (c : Int) : inTypeOf c = some .brk ↔ c = ch '_' := by
  have htable : ∀ i < 257, chtype[i]? = some .brk ↔ i = 96 := by decide +kernel
  unfold inTypeOf
  split_ifs with hc
  · exact iff_of_false nofun (by rintro rfl; exact absurd hc (by decide))
  · rcases lt_or_ge (c + 1).toNat 257 with hlt | hge
    · rw [htable _ hlt]
      show (c + 1).toNat = 96 ↔ c = 95
      omega
    · rw [List.getElem?_eq_none (by rw [length_chtype]; omega)]
      exact iff_of_false nofun (by show ¬ c = 95; omega)

theorem isDigitChar_of_type {c : Int} (h : inTypeOf c = some t) :
    isDigitChar c = decide (t.code ≤ CharType.brk.code) := by
  rw [isDigitChar, decide_eq_decide, ← inTypeOf_brk_iff, h]
  cases t <;> decide

theorem inTypeOf_of_isDigitChar {c : Int} (h : isDigitChar c = true) : inTypeOf c ≠ none := by
  rcases of_decide_eq_true h with h | rfl
  · rw [h]
    nofun
  · decide

/-! ## The tokens that store characters -/

section
variable {R : Reader σ} {eof : Int} (F : Feed R.toSource eof) {s : ScanState σ} {cs : List Int} {c : Int}

theorem eof_class (heof : eof = -1 ∨ eof = 0) :
    isNameChar eof = false ∧ isDigitChar eof = false ∧ isSignChar eof = false := by
  rcases heof with rfl | rfl <;> exact ⟨rfl, rfl, rfl⟩

theorem putChar_full (h : maxStrLen ≤ a.length) (c : Int) (s : ScanState σ) : putChar a c s = .error .buffer := by
  rw [putChar, if_neg (not_lt.2 h)]
  rfl

theorem putChar_room (h : a.length < maxStrLen) (c : Int) (s : ScanState σ) :
    putChar a c s = .ok (a ++ [toBYTE c], s) := by
  rw [putChar, if_pos h]
  rfl

include F in
theorem inType_ite {α : Type} {q : CharType → Prop} [DecidablePred q] {p : Int → Bool} {m n : Scan σ α}
    (h : ∀ t, inTypeOf c = some t → p c = decide (q t)) :
    (R.inType c >>= fun t => if q t then m else n) = R.inType c >>= fun _ => if p c then m else n := by
  rw [F.inType]
  cases ht : inTypeOf c with
  | none => rfl
  | some t =>
    show (if q t then m else n) = if p c = true then m else n
    rw [h t ht]
    by_cases hq : q t
    · rw [if_pos hq, if_pos (decide_eq_true hq)]
    · rw [if_neg hq, if_neg (by rw [decide_eq_false hq]; exact Bool.false_ne_true)]

theorem putEnd_iff {α : Type} {m : Scan σ α} (hm : ∀ s, m s ≠ .error .buffer) (s : ScanState σ) :
    (putEnd a >>= fun _ => m) s = .error .buffer ↔ maxStrLen ≤ a.length := by
  rcases lt_or_ge a.length maxStrLen with hlt | hge
  · have hput : putEnd a s = .ok ((), s) := by
      rw [putEnd, if_pos hlt]
      rfl
    rw [bind_of_ok hput]
    exact iff_of_false (hm s) (not_le.2 hlt)
  · have hput : putEnd a s = .error .buffer := by
      rw [putEnd, if_neg (not_lt.2 hge)]
      rfl
    exact iff_of_true (bind_of_error hput) hge

include F in
theorem split_run {p : Int → Bool} (hp : p eof = false) (hat : F.At s.source cs) :
    F.At s.source (cs.takeWhile p ++ cs.dropWhile p) ∧ p ((cs.dropWhile p).headD eof) = false ∧
      (cs.takeWhile p).length < R.room s.source + 2 := by
  refine ⟨by rwa [takeWhile_append_dropWhile], headD_dropWhile hp cs, ?_⟩
  rw [F.room hat]
  exact lt_of_le_of_lt ( takeWhile_prefix p).length_le (by omega)

theorem when_setException (p : Prop) [Decidable p] (e : TokenError) (s : ScanState σ) :
    ∃ e', when p (setException e) s = .ok ((), { s with bpException := e' }) := by
  by_cases hp : p
  · rw [when_pos hp]
    exact ⟨_, rfl⟩
  · rw [when_neg hp]
    exact ⟨_, rfl⟩

def nameRound (R : Reader σ) : List UInt8 × Int × Int → Scan σ (List UInt8 × Int × Int ⊕ List UInt8 × Int) :=
  fun (s, n, c) => do
    when (n - 1 < 0) (setException .tok2long)
    let s ← putChar s c
    let c ← R.getc
    let t ← R.inType c
    if t.code ≤ CharType.lower.code then pure (.inl (s, n - 1, c)) else pure (.inr (s, c))

theorem nameRound_full (hfull : maxStrLen ≤ a.length) (n c : Int) (s : ScanState σ) :
    nameRound R (a, n, c) s = .error .buffer := by
  obtain ⟨e, hwhen⟩ := when_setException (n - 1 < 0) .tok2long s
  rw [nameRound, bind_of_ok hwhen]
  exact bind_of_error (putChar_full hfull c _)

include F in
theorem nameRound_room (hroom : a.length < maxStrLen) (c : Int) (s : ScanState σ) :
    nameRound R (a, (maxStrLen : Int) - a.length, c) s = (do
      let c' ← R.getc
      let _ ← R.inType c'
      if isNameChar c' then pure (.inl (a ++ [toBYTE c], (maxStrLen : Int) - (a ++ [toBYTE c]).length, c'))
        else pure (.inr (a ++ [toBYTE c], c')) : Scan σ (List UInt8 × Int × Int ⊕ List UInt8 × Int)) s := by
  have hn : ¬ (maxStrLen : Int) - a.length - 1 < 0 := by omega
  have hnext : (maxStrLen : Int) - a.length - 1 = (maxStrLen : Int) - (a ++ [toBYTE c]).length := by
    rw [length_append, length_singleton]
    omega
  rw [nameRound, when_neg hn, hnext]
  rw [bind_of_ok (a := ()) (t := s) rfl, bind_of_ok (putChar_room hroom c s)]
  exact congrFun (congrArg _ (funext fun c' => inType_ite F fun t ht => isNameChar_of_type ht)) s

theorem scanName_iff (hc : isNameChar c = true) (hat : F.At s.source cs) :
    scanName R c s = .error .buffer ↔ maxStrLen < nameSlots eof (c :: cs) := by
  obtain ⟨hat, hend, hlen⟩ := split_run F (eof_class F.eof_cases).1 hat
  have hrun : Stores F (cs.dropWhile isNameChar) ([] : List UInt8).length _ False
      (R.loop (nameRound R) ([], (maxStrLen : Int), c) s) :=
    doWhile_run F (fun a c => (a, (maxStrLen : Int) - a.length, c)) isNameChar (fun _ => true) (nameRound R)
      (fun a c s _ hfull => nameRound_full hfull _ c s) (fun a c s hroom => nameRound_room F (hroom rfl) c s)
      (fun c hc => ?_) hend hlen (fun x hx => of_mem_takeWhile hx) (Nat.zero_le _) hat
  · have hslots : nameSlots eof (c :: cs) = 0 + (c :: cs.takeWhile isNameChar).countP (fun _ => true) +
        endSlot eof (cs.dropWhile isNameChar) := by
      rw [nameSlots, takeWhile_cons_of_pos hc, dropWhile_cons_of_pos hc, countP_true, Nat.zero_add]
    rw [hslots]
    refine Stores.bind_iff F (m := R.loop (nameRound R) ([], (maxStrLen : Int), c)) hrun
      (fun a s' ha _ hsome _ _ => ?_) endSlot_eq_zero
    rw [endSlot_eq_one hsome, ← ha]
    exact (putEnd_iff (m := pure (a, (cs.dropWhile isNameChar).headD eof)) (fun _ => nofun) s').trans Nat.lt_succ_iff.symm
  · intro hnone
    rw [isNameChar, hnone] at hc
    cases hc

def signRound (R : Reader σ) : List UInt8 × Int × Int → Scan σ (List UInt8 × Int × Int ⊕ List UInt8 × Int) :=
  fun (s, n, d) => do
    let t ← R.inType d
    if t = .sign then
      when (n - 1 = 0) (setException .tok2long)
      let s ← putChar s d
      let d ← R.getc
      pure (.inl (s, n - 1, d))
    else pure (.inr (s, d))

section
include F

theorem inType_miss (h : inTypeOf c = none) (s : ScanState σ) : R.inType c s = .error .table := by
  rw [F.inType, h]
  rfl

theorem inType_found (h : inTypeOf c = some t) (s : ScanState σ) : R.inType c s = .ok (t, s) := by
  rw [F.inType, h]
  rfl

end

theorem isSignChar_iff : isSignChar c = true ↔ inTypeOf c = some .sign := decide_eq_true_iff

section
variable (h : QuietReader R eof)
include h

theorem scanSigns_iff (ha : a.length ≤ maxStrLen) (n c d : Int)
    (hcur : F.Cur cs d s) : scanSigns R a n c d s = .error .buffer ↔ maxStrLen < a.length + signSlots eof cs := by
  have hsplit : cs.takeWhile isSignChar ++ cs.dropWhile isSignChar = cs := takeWhile_append_dropWhile
  have hend' := headD_dropWhile (p := isSignChar) (eof_class F.eof_cases).2.2 cs
  have hlen' : (cs.takeWhile isSignChar).length < R.room s.source + 2 := by
    rw [F.room hcur.2, length_tail]
    have hle := ( takeWhile_prefix isSignChar (l := cs)).length_le
    omega
  have hrun : Stores F (cs.dropWhile isSignChar) a.length ((cs.takeWhile isSignChar).countP fun _ => true) False
      (R.loop (signRound R) (a, n, d) s) := by
    have hmk : (a, n, d) = (a, n + a.length - a.length, d) := by rw [Int.add_sub_cancel]
    rw [hmk]
    refine while_run F (fun a' d => (a', n + a.length - a'.length, d)) isSignChar (fun _ => true) (signRound R)
      False.elim (fun a' c s hnone => bind_of_error (inType_miss F hnone s)) (fun a' c s hsome hc => ?_)
      (fun a' c s hc _ hfull => ?_) (fun a' c s hc hroom => ?_) hend' hlen' (fun x hx => of_mem_takeWhile hx) ha
      (fun _ => False.elim) (hsplit.symm ▸ hcur)
    · obtain ⟨t, ht⟩ := Option.ne_none_iff_exists'.1 hsome
      have hne : t ≠ .sign := by
        rintro rfl
        rw [isSignChar_iff.2 ht] at hc
        cases hc
      rw [signRound, bind_of_ok (inType_found F ht s), if_neg hne]
      rfl
    · obtain ⟨e, hwhen⟩ := when_setException (n + a.length - a'.length - 1 = 0) .tok2long s
      rw [signRound, bind_of_ok (inType_found F (isSignChar_iff.1 hc) s), if_pos rfl, bind_of_ok hwhen]
      exact bind_of_error (putChar_full hfull c _)
    · obtain ⟨e, hwhen⟩ := when_setException (n + a.length - a'.length - 1 = 0) .tok2long s
      have hnext : n + a.length - a'.length - 1 = n + a.length - (a' ++ [toBYTE c]).length := by
        rw [length_append, length_singleton]
        omega
      refine ⟨e, ?_⟩
      rw [signRound, bind_of_ok (inType_found F (isSignChar_iff.1 hc) s), if_pos rfl, bind_of_ok hwhen,
        bind_of_ok (putChar_room (hroom rfl) c _), hnext]
      rfl
  have hslots : a.length + signSlots eof cs =
      a.length + ((cs.takeWhile isSignChar).countP fun _ => true) + endSlot eof (cs.dropWhile isSignChar) := by
    rw [signSlots, countP_true, Nat.add_assoc]
  rw [hslots]
  refine Stores.bind_iff F (m := R.loop (signRound R) (a, n, d)) hrun (fun a' s' ha' _ hsome _ _ => ?_) endSlot_eq_zero
  rw [endSlot_eq_one hsome, ← ha']
  have hrest : Grows R.toSource 0 (do
      let t ← R.inType ((cs.dropWhile isSignChar).headD eof)
      if t.code ≥ CharType.space.code ∧ c = intab.termin ∧ a'.getD 1 0 = 0 then
        endToken ((cs.dropWhile isSignChar).headD eof) .endcl
      else symbol a' ((cs.dropWhile isSignChar).headD eof)) :=
    (h.source.inType _).bind_left fun t => Grows.ite (fun _ => Grows.endToken _ _) fun _ => Grows.endToken _ _
  exact (putEnd_iff hrest.not_buffer s').trans Nat.lt_succ_iff.symm

theorem QuietReader.astcom (d : Int) : Grows R.toSource 0 (astcom R d) :=
  (h.com2plain _ _).bind_left fun _ => Grows.ite (fun _ => h.source.getc_bind fun _ => Grows.pure _) fun _ => Grows.pure _

theorem labSign_iff (c d : Int) (hcur : F.Cur cs d s) :
    labSign R [toBYTE c] c d s = .error .buffer ↔ maxStrLen < symbolSlots eof c cs := by
  have hone : [toBYTE c].length < maxStrLen := show 1 < maxStrLen by decide
  have htwo : ([toBYTE c] ++ [toBYTE d]).length < maxStrLen := show 2 < maxStrLen by decide
  have hd := hcur.1
  unfold labSign symbolSlots
  rw [← hd]
  by_cases hcom : c = intab.begcom ∧ d = intab.astcom
  · rw [if_pos hcom, if_pos hcom]
    exact iff_of_false ((h.astcom d).not_buffer s) (by decide)
  rw [if_neg hcom, if_neg hcom]
  by_cases hdot : c = ch '.'
  · rw [if_pos hdot]
    by_cases hdot' : d = ch '.'
    · obtain ⟨r, hcur', -, hget⟩ := F.getc_cur hcur.2
      rw [if_pos hdot', if_pos ⟨hdot, hdot'⟩, bind_of_ok (putChar_room hone d s), bind_of_ok hget]
      by_cases hsign : cs.tail.headD eof = ch '+' ∨ cs.tail.headD eof = ch '-'
      · rw [if_pos hsign, if_pos hsign]
        exact (putEnd_iff (m := endToken _ _) (fun _ => nofun) _).trans (iff_of_false (not_le.2 htwo) (by decide))
      · rw [if_neg hsign, if_neg hsign]
        exact scanSigns_iff F h htwo.le _ _ _ hcur'
    · rw [if_neg hdot', if_neg fun hboth => hdot' hboth.2, if_neg fun hboth : c = ch '#' ∧ _ => ?_]
      · exact scanSigns_iff F h hone.le _ _ _ hcur
      · rw [hdot] at hboth
        exact absurd hboth.1 (by decide)
  rw [if_neg hdot, if_neg fun hboth : c = ch '.' ∧ _ => hdot hboth.1]
  by_cases hhash : c = ch '#' ∧ d = ch '!'
  · obtain ⟨r, hcur', -, hget⟩ := F.getc_cur hcur.2
    rw [if_pos hhash, if_pos hhash, when_neg (by decide), bind_of_ok (a := ()) (t := s) rfl,
      bind_of_ok (putChar_room hone d s), bind_of_ok hget]
    exact scanSigns_iff F h htwo.le _ _ _ hcur'
  · rw [if_neg hhash, if_neg hhash]
    exact scanSigns_iff F h hone.le _ _ _ hcur

theorem caseSign_iff (hat : F.At s.source cs) : caseSign R c s = .error .buffer ↔ maxStrLen < symbolSlots eof c cs := by
  obtain ⟨r, hcur, -, hget⟩ := F.getc_cur hat
  rw [caseSign, bind_of_ok (putChar_room (by decide) c s), bind_of_ok hget]
  exact labSign_iff F h c _ hcur

end

theorem noble_ne (hc : inTypeOf c = some .noble) : c ≠ intab.termin ∧ c ≠ intab.eolcom := by
  constructor
  · rintro rfl
    cases hc
  · rintro rfl
    cases hc

theorem caseNoble_iff (fl : Flags) (h : QuietReader R eof) (hc : inTypeOf c = some .noble) (hat : F.At s.source cs) :
    caseNoble R fl c s = .error .buffer ↔ cs.headD eof = ch '=' ∧ maxStrLen < symbolSlots eof c cs := by
  obtain ⟨hdot, hcom⟩ := noble_ne hc
  obtain ⟨r, hcur, -, hget⟩ := F.getc_cur hat
  rw [caseNoble, endOrComment, if_neg hdot, if_neg fun hboth => hcom hboth.2, bind_of_ok (putChar_room (by decide) c s),
    bind_of_ok hget]
  by_cases heq : cs.headD eof = ch '='
  · rw [if_pos heq, and_iff_right heq]
    exact labSign_iff F h c _ hcur
  · rw [if_neg heq]
    exact (putEnd_iff (m := symbol _ _) (fun _ => nofun) _).trans
      (iff_of_false (show ¬ maxStrLen ≤ 1 by decide) fun hboth => heq hboth.1)

/-! ## Numbers -/

/-- A character of a number is stored unless it is an underscore. -/
abbrev keepDigit (c : Int) : Bool := c ≠ ch '_'

theorem putDigit_full (hc : keepDigit c = true) (h : maxStrLen ≤ a.length) (s : ScanState σ) :
    putDigit a c s = .error .buffer := by
  rw [putDigit, if_pos (of_decide_eq_true hc)]
  exact putChar_full h c s

theorem putDigit_room (h : keepDigit c = true → a.length < maxStrLen) (s : ScanState σ) :
    putDigit a c s = .ok (stored keepDigit a c, s) := by
  unfold putDigit stored
  by_cases hc : c ≠ ch '_'
  · rw [if_pos hc, if_pos (decide_eq_true hc)]
    exact putChar_room (h (decide_eq_true hc)) c s
  · rw [if_neg hc, if_neg (by rw [keepDigit, decide_eq_false hc]; exact Bool.false_ne_true)]
    rfl

theorem scanDigits_stores (ha : a.length ≤ maxStrLen) (hcur : F.Cur cs c s) :
    Stores F (cs.dropWhile isDigitChar) a.length (digitSlots cs)
      (cs.takeWhile isDigitChar ≠ [] ∧ cs.dropWhile isDigitChar ≠ []) (scanDigits R a c s) := by
  have hsplit : cs.takeWhile isDigitChar ++ cs.dropWhile isDigitChar = cs := takeWhile_append_dropWhile
  have hend := headD_dropWhile (p := isDigitChar) (eof_class F.eof_cases).2.1 cs
  have hlen : (cs.takeWhile isDigitChar).length < R.room s.source + 2 := by
    rw [F.room hcur.2, length_tail]
    have hle := ( takeWhile_prefix isDigitChar (l := cs)).length_le
    omega
  refine while_run F (fun a c => (a, c)) isDigitChar keepDigit (Feed.digitsRound R)
    (fun hag => hag.2) (fun a c s hnone => bind_of_error (inType_miss F hnone s)) (fun a c s hsome hc => ?_)
    (fun a c s hc hk hfull => ?_) (fun a c s hc hroom => ⟨s.bpException, ?_⟩) hend hlen
    (fun x hx => of_mem_takeWhile hx) ha (fun hnil hag => absurd hnil hag.1) (hsplit.symm ▸ hcur)
  · obtain ⟨t, ht⟩ := Option.ne_none_iff_exists'.1 hsome
    have hne : ¬ (t = .digit ∨ c = ch '_') := by
      have hnot := of_decide_eq_false hc
      rw [ht] at hnot
      exact fun h => hnot (h.imp_left (congrArg some))
    rw [Feed.digitsRound, bind_of_ok (inType_found F ht s), if_neg hne]
    rfl
  all_goals
    obtain ⟨t, ht⟩ := Option.ne_none_iff_exists'.1 (inTypeOf_of_isDigitChar hc)
    have hyes : t = .digit ∨ c = ch '_' := by
      have hor := of_decide_eq_true hc
      rw [ht] at hor
      exact hor.imp_left Option.some.inj
    rw [Feed.digitsRound, bind_of_ok (inType_found F ht s), if_pos hyes]
  · exact bind_of_error (putDigit_full hk hfull s)
  · exact bind_of_ok (putDigit_room hroom s)

def fractionRound (R : Reader σ) : List UInt8 × Int → Scan σ (List UInt8 × Int ⊕ List UInt8 × Int) := fun (s, d) => do
  let s ← putDigit s d
  let d ← R.getc
  let t ← R.inType d
  if t.code ≤ CharType.brk.code then pure (.inl (s, d)) else pure (.inr (s, d))

theorem scanFraction_stores (ha : a.length ≤ maxStrLen) (hc : isDigitChar c = true) (hcur : F.Cur cs c s) :
    Stores F (cs.dropWhile isDigitChar) a.length (digitSlots cs) False (scanFraction R a c s) := by
  obtain ⟨rfl, hat⟩ := hcur
  cases cs with
  | nil =>
    rw [show ([] : List Int).headD eof = eof from rfl, (eof_class F.eof_cases).2.1] at hc
    cases hc
  | cons x cs =>
    have hx : isDigitChar x = true := hc
    obtain ⟨hat, hend, hlen⟩ := split_run F (eof_class F.eof_cases).2.1 (show F.At s.source cs from hat)
    rw [digitSlots, takeWhile_cons_of_pos hx, dropWhile_cons_of_pos hx]
    refine doWhile_run F (fun a c => (a, c)) isDigitChar keepDigit (fractionRound R)
      (fun a c s hk hfull => bind_of_error (putDigit_full hk hfull s)) (fun a c s hroom => ?_)
      (fun c hc => inTypeOf_of_isDigitChar hc) hend hlen (fun x hx => of_mem_takeWhile hx) ha hat
    rw [fractionRound, bind_of_ok (putDigit_room hroom s)]
    exact congrFun (congrArg _ (funext fun c' => inType_ite F fun t ht => isDigitChar_of_type ht)) s

theorem endReal_iff (a : List UInt8) (d : Int) (s : ScanState σ) :
    endReal a d s = .error .buffer ↔ maxStrLen ≤ a.length := putEnd_iff (m := endToken d (.real a)) (fun _ => nofun) s

theorem scanExponent_iff (ha : a.length ≤ maxStrLen) (hcur : F.Cur cs c s) :
    scanExponent R a c s = .error .buffer ↔ maxStrLen < a.length + exponentSlots eof cs := by
  have hc := hcur.1
  unfold exponentSlots
  rw [← hc]
  cases ht : inTypeOf c with
  | none =>
    have hno : isDigitChar c ≠ true := fun h => inTypeOf_of_isDigitChar h ht
    rw [scanExponent, bind_of_error (inType_miss F ht s), if_neg hno]
    exact iff_of_false nofun (not_lt.2 ha)
  | some t =>
    rw [scanExponent, bind_of_ok (inType_found F ht s)]
    have htype := isDigitChar_of_type ht
    by_cases hcode : t.code ≤ CharType.brk.code
    · have hyes : isDigitChar c = true := htype.trans (decide_eq_true hcode)
      rw [if_neg (not_lt.2 hcode), if_pos hyes, ← Nat.add_assoc]
      refine Stores.bind_iff F (scanFraction_stores F ha hyes hcur) (fun a' s' ha' _ hsome _ _ => ?_) endSlot_eq_zero
      rw [endSlot_eq_one hsome, ← ha']
      exact (endReal_iff a' _ s').trans Nat.lt_succ_iff.symm
    · have hno : isDigitChar c ≠ true := by
        rw [htype, decide_eq_false hcode]
        exact Bool.false_ne_true
      rw [if_pos (not_le.1 hcode), if_neg hno]
      exact iff_of_false nofun (not_lt.2 ha)

theorem putChar_bind_iff {β : Type} {slots : Nat} {f : List UInt8 → Scan σ β}
    (h : a.length < maxStrLen → (f (a ++ [toBYTE c]) s = .error .buffer ↔ maxStrLen < a.length + 1 + slots)) :
    (putChar a c >>= f) s = .error .buffer ↔ maxStrLen < a.length + 1 + slots := by
  rcases lt_or_ge a.length maxStrLen with hlt | hge
  · rw [bind_of_ok (putChar_room hlt c s)]
    exact h hlt
  · exact iff_of_true (bind_of_error (putChar_full hge c s)) (by omega)

theorem length_snoc (a : List UInt8) (b : UInt8) : (a ++ [b]).length = a.length + 1 := length_append

theorem afterFraction_iff (hsome : inTypeOf (cs.headD eof) ≠ none) (hat : F.At s.source cs.tail) :
    ((if cs.headD eof = ch 'e' ∨ cs.headD eof = ch 'E' then do
        let s ← putChar a (ch 'E')
        let d ← R.getc
        if d = ch '-' then
          let s ← putChar s d
          let d ← R.getc
          scanExponent R s d
        else if d = ch '+' then
          let d ← R.getc
          scanExponent R s d
        else scanExponent R s d
      else endReal a (cs.headD eof) : Scan σ Pass) s = .error .buffer) ↔
      maxStrLen < a.length + afterFraction eof cs := by
  unfold afterFraction
  by_cases he : cs.headD eof = ch 'e' ∨ cs.headD eof = ch 'E'
  · rw [if_pos he, if_pos he]
    obtain ⟨r, hcur, -, hget⟩ := F.getc_cur hat
    by_cases hminus : cs.tail.headD eof = ch '-'
    · rw [if_pos hminus, show a.length + (2 + exponentSlots eof cs.tail.tail) =
        a.length + 1 + (1 + exponentSlots eof cs.tail.tail) by omega]
      apply putChar_bind_iff
      intro hroom
      obtain ⟨r', hcur', -, hget'⟩ := F.getc_cur hcur.2
      rw [bind_of_ok hget, if_pos hminus, ← Nat.add_assoc, ← length_snoc a (toBYTE (ch 'E'))]
      apply putChar_bind_iff
      intro hroom'
      rw [bind_of_ok hget', ← length_snoc]
      exact scanExponent_iff F (by rw [length_snoc]; exact hroom') hcur'
    · rw [if_neg hminus]
      by_cases hplus : cs.tail.headD eof = ch '+'
      · rw [if_pos hplus, ← Nat.add_assoc]
        apply putChar_bind_iff
        intro hroom
        obtain ⟨r', hcur', -, hget'⟩ := F.getc_cur hcur.2
        rw [bind_of_ok hget, if_neg hminus, if_pos hplus, bind_of_ok hget', ← length_snoc a (toBYTE (ch 'E'))]
        exact scanExponent_iff F (by rw [length_snoc]; exact hroom) hcur'
      · rw [if_neg hplus, ← Nat.add_assoc]
        apply putChar_bind_iff
        intro hroom
        rw [bind_of_ok hget, if_neg hminus, if_neg hplus, ← length_snoc a (toBYTE (ch 'E'))]
        exact scanExponent_iff F (by rw [length_snoc]; exact hroom) hcur
  · rw [if_neg he, if_neg he, endSlot_eq_one hsome]
    exact (endReal_iff a _ s).trans Nat.lt_succ_iff.symm

theorem scanReal_iff (hc : isDigitChar c = true) (hcur : F.Cur cs c s) :
    scanReal R a c s = .error .buffer ↔ maxStrLen < a.length + fractionSlots eof cs := by
  rw [scanReal, fractionSlots, Nat.add_assoc, ← Nat.add_assoc]
  apply putChar_bind_iff
  intro hroom
  have hlen : (a ++ [toBYTE (ch '.')]).length ≤ maxStrLen := by
    rw [length_snoc]
    exact hroom
  rw [← length_snoc a (toBYTE (ch '.')), ← Nat.add_assoc]
  refine Stores.bind_iff F (scanFraction_stores F hlen hc hcur) (fun a' s' ha' _ hsome hat _ => ?_) fun hnone => ?_
  · rw [← ha']
    exact afterFraction_iff F hsome hat
  · have he : ∀ k : Int, inTypeOf k ≠ none → (cs.dropWhile isDigitChar).headD eof ≠ k := by
      intro k hk heq
      rw [heq] at hnone
      exact hk hnone
    rw [afterFraction, if_neg, endSlot_eq_zero hnone]
    rintro (h | h)
    · exact he _ (by decide) h
    · exact he _ (by decide) h

theorem endDigits_iff (a : List UInt8) (d : Int) (s : ScanState σ) :
    endDigits a d s = .error .buffer ↔ maxStrLen ≤ a.length := putEnd_iff (m := endToken d (.digit a)) (fun _ => nofun) s

section
variable (h : QuietReader R eof)
include h

theorem scanRadix_iff (a : List UInt8) (s : ScanState σ) : scanRadix R a s = .error .buffer ↔ maxStrLen ≤ a.length := by
  rcases lt_or_ge a.length maxStrLen with hlt | hge
  · exact iff_of_false ((h.scanRadix hlt).not_buffer s) (not_le.2 hlt)
  · refine iff_of_true (bind_of_error ?_) hge
    rw [putEnd, if_neg (not_lt.2 hge)]
    rfl

theorem afterDigits_iff (ha : a.length ≤ maxStrLen)
    (hsome : inTypeOf (cs.headD eof) ≠ none) (hat : F.At s.source cs.tail)
    (hback : maxStrLen ≤ a.length → cs ≠ [] → F.Back s.source) :
    ((if cs.headD eof = intab.radix then scanRadix R a else if cs.headD eof = intab.dpoint then do
        let d ← R.getc
        let t ← R.inType d
        if t = .digit then scanReal R a d
        else
          R.ungetc d
          endDigits a (cs.headD eof)
      else endDigits a (cs.headD eof) : Scan σ Pass) s = .error .buffer) ↔
      maxStrLen < a.length + afterDigits eof cs := by
  unfold afterDigits
  by_cases hradix : cs.headD eof = intab.radix
  · have hpoint : cs.headD eof ≠ intab.dpoint := by
      rw [hradix]
      decide
    rw [if_pos hradix, if_neg hpoint, endSlot_eq_one hsome]
    exact (scanRadix_iff h a s).trans Nat.lt_succ_iff.symm
  rw [if_neg hradix]
  by_cases hpoint : cs.headD eof = intab.dpoint
  · rw [if_pos hpoint, if_pos hpoint]
    have hne : cs ≠ [] := by
      rintro rfl
      exact F.eof_ne_point hpoint
    obtain ⟨r, hcur, hback', hget⟩ := F.getc_cur hat
    rw [bind_of_ok hget]
    cases ht : inTypeOf (cs.tail.headD eof) with
    | none =>
      rw [bind_of_error (inType_miss F ht _), if_neg nofun, endSlot_eq_zero ht]
      exact iff_of_false nofun (not_lt.2 ha)
    | some t =>
      rw [bind_of_ok (inType_found F ht _)]
      by_cases hdigit : t = .digit
      · rw [if_pos hdigit, if_pos (congrArg some hdigit)]
        have hc : isDigitChar (cs.tail.headD eof) = true := decide_eq_true (.inl (hdigit ▸ ht))
        exact scanReal_iff F hc hcur
      · rw [if_neg hdigit, if_neg fun heq => hdigit (Option.some.inj heq), endSlot_eq_one (by rw [ht]; nofun)]
        rcases lt_or_ge a.length maxStrLen with hlt | hge
        · have hquiet : Grows R.toSource 1 (do
              R.ungetc (cs.tail.headD eof)
              endDigits a (cs.headD eof)) := by
            refine ((h.source.ungetc _).bind fun _ => ?_ : Grows R.toSource (1 + 0) _)
            have hput : Grows R.toSource 0 (putEnd a : Scan σ Unit) := by
              rw [putEnd, if_pos hlt]
              exact Grows.pure _
            exact hput.bind_left fun _ => Grows.endToken _ _
          exact iff_of_false (hquiet.not_buffer _) (by omega)
        · obtain ⟨r', hunget⟩ := F.ungetc (s := { s with source := r }) (cs.tail.headD eof)
            (hback' (.inr (hback hge hne)))
          rw [bind_of_ok hunget]
          exact iff_of_true ((endDigits_iff a _ _).2 hge) (by omega)
  · rw [if_neg hpoint, if_neg hpoint, endSlot_eq_one hsome]
    exact (endDigits_iff a _ s).trans Nat.lt_succ_iff.symm

theorem scanNumber_iff (ha : a.length ≤ 1) (hcur : F.Cur cs c s) : scanNumber R a c s = .error .buffer ↔
      maxStrLen < a.length + digitSlots cs + afterDigits eof (cs.dropWhile isDigitChar) := by
  have hlen : a.length ≤ maxStrLen := le_trans ha (by decide)
  refine Stores.bind_iff F (scanDigits_stores F hlen hcur) (fun a' s' ha' hle hsome hat hback => ?_) fun hnone => ?_
  · rw [← ha']
    refine afterDigits_iff F h (ha' ▸ hle) hsome hat fun hfull hne => hback ⟨fun hnil => ?_, hne⟩
    have hzero : digitSlots cs = 0 := by
      rw [digitSlots, hnil]
      rfl
    have hmax : maxStrLen ≤ a.length + digitSlots cs := ha' ▸ hfull
    rw [hzero] at hmax
    exact absurd (le_trans hmax ha) (by decide)
  · have hpoint : (cs.dropWhile isDigitChar).headD eof ≠ intab.dpoint := by
      intro heq
      rw [heq] at hnone
      exact absurd hnone (by decide)
    rw [afterDigits, if_neg hpoint, endSlot_eq_zero hnone]

theorem caseDigit_iff (hc : inTypeOf c = some .digit) (hat : F.At s.source cs) :
    caseDigit R c s = .error .buffer ↔ maxStrLen < numberSlots eof (c :: cs) := by
  have hdigit : isDigitChar c = true := decide_eq_true (.inl hc)
  have hkeep : keepDigit c = true := by
    apply decide_eq_true
    rintro rfl
    cases hc
  unfold numberSlots
  rw [headD_cons, tail_cons]
  by_cases h0 : c = ch '0'
  · obtain ⟨r, hcur, -, hget⟩ := F.getc_cur hat
    rw [caseDigit, if_pos h0, bind_of_ok hget]
    cases hbase : baseOf (cs.headD eof) with
    | some base =>
      rw [if_pos ⟨h0, nofun⟩]
      exact iff_of_false ((h.scanBase base).not_buffer _) (by decide)
    | none =>
      have hslots : digitSlots (c :: cs) = 1 + digitSlots cs := by
        rw [digitSlots, takeWhile_cons_of_pos hdigit, countP_cons_of_pos hkeep, Nat.add_comm]
        rfl
      rw [if_neg fun hboth => hboth.2 rfl, hslots, dropWhile_cons_of_pos hdigit]
      show (putChar [] c >>= _) _ = _ ↔ _
      rw [bind_of_ok (putChar_room (by decide) c _)]
      exact scanNumber_iff F h (Nat.le_refl 1) hcur
  · rw [caseDigit, if_neg h0, if_neg fun hboth => h0 hboth.1]
    have hrun := scanNumber_iff F h (a := []) (Nat.zero_le 1) (show F.Cur (c :: cs) c s from ⟨rfl, hat⟩)
    rwa [length_nil, Nat.zero_add] at hrun

end

end

end Picat
