import Picat.Token.BufferBound
import Picat.Token.NumberText

/-!
# The bound of `AtomStr`

* `atomStr_bound` : calls on texts without tokens that are too long do not write outside `AtomStr`.
-/

namespace Picat
open Simulation List

variable {σ : Type}

/-! ## Quoted atoms -/

section
variable {R : Reader σ} {eof : Int} (h : QuietReader R eof) {q : Int}

theorem putText_room {a : List UInt8} {cs : List Int} (hroom : a.length + cs.length ≤ maxStrLen) (s : ScanState σ) :
    putText a cs s = .ok (a ++ cs.map toBYTE, s) := by
  induction cs generalizing a with
  | nil =>
    rw [map_nil, append_nil]
    rfl
  | cons c cs ih =>
    rw [length_cons] at hroom
    have hlen : (a ++ [toBYTE c]).length + cs.length ≤ maxStrLen := by
      rw [length_snoc]
      omega
    show (putChar a c >>= fun a => putText a cs) s = _
    rw [bind_of_ok (putChar_room (by omega) c s), ih hlen, append_assoc]
    rfl

theorem codepointLength_le (d : Int) : 1 ≤ codepointLength d ∧ codepointLength d ≤ 4 := by
  unfold codepointLength utf8CodepointToStr
  split_ifs <;> simp

theorem codepointLength_ascii {d : Int} (hd : d ≤ 127) : codepointLength d = 1 := by
  rw [codepointLength, utf8CodepointToStr, if_pos (by omega)]
  rfl

theorem FitsAt.le {n : Nat} {d : Int} (hfit : FitsAt n d) : n + codepointLength d ≤ maxStrLen := by
  have hlen := codepointLength_le d
  rcases hfit with ⟨hd, hn⟩ | ⟨-, hn⟩
  · rw [codepointLength_ascii hd]
    exact hn
  · omega

/-- The state of the loop over a quoted atom, with the slots that are left. -/
def quotedState (a : List UInt8) : List UInt8 × Int := (a, (maxStrLen : Int) - a.length)

def codepointBytes (d : Int) : List UInt8 := (utf8CodepointToStr d).map toBYTE

theorem length_append_codepointBytes (a : List UInt8) (d : Int) :
    (a ++ codepointBytes d).length = a.length + codepointLength d := by
  rw [length_append, codepointBytes, length_map, codepointLength]

theorem putCodepoint_room {a : List UInt8} {d : Int} (hfit : FitsAt a.length d) (s : ScanState σ) :
    putCodepoint d (quotedState a) s = .ok (quotedState (a ++ codepointBytes d), s) := by
  have hle := hfit.le
  have hlen := length_append_codepointBytes a d
  rw [quotedState, putCodepoint]
  rcases hfit with ⟨hd, hn⟩ | ⟨hd, hn⟩
  · have hbytes : codepointBytes d = [toBYTE d] := by
      rw [codepointBytes, utf8CodepointToStr, if_pos (by omega)]
      rfl
    rw [hbytes] at hlen ⊢
    have hnext : (maxStrLen : Int) - a.length - 1 = (maxStrLen : Int) - (a ++ [toBYTE d]).length := by
      rw [length_snoc]
      omega
    rw [if_pos hd, if_neg (by omega), bind_of_ok (putChar_room hn d s), hnext]
    rfl
  · have hnext : (maxStrLen : Int) - a.length - ((a ++ codepointBytes d).length - a.length) =
        (maxStrLen : Int) - (a ++ codepointBytes d).length := by omega
    rw [if_neg (by omega), if_neg (by omega), bind_of_ok (putText_room hle s)]
    show Except.ok ((_, (maxStrLen : Int) - a.length - ((a ++ codepointBytes d).length - a.length)), _) = _
    rw [hnext]
    rfl

theorem putCodepoint_full {a : List UInt8} (ha : a.length ≤ maxStrLen) {d : Int} (hfit : ¬ FitsAt a.length d)
    (s : ScanState σ) :
    ∃ n, putCodepoint d (quotedState a) s = .ok ((a, n), { s with bpException := some .tok2long }) := by
  rw [quotedState, putCodepoint]
  by_cases hd : d ≤ 127
  · have hn : ¬ a.length < maxStrLen := fun hn => hfit (.inl ⟨hd, hn⟩)
    rw [if_pos hd, if_pos (by omega)]
    exact ⟨_, rfl⟩
  · have hn : ¬ a.length + 4 ≤ maxStrLen := fun hn => hfit (.inr ⟨by omega, hn⟩)
    rw [if_neg hd, if_pos (by omega)]
    exact ⟨_, rfl⟩

def quotedRound (R : Reader σ) (q : Int) : List UInt8 × Int → Scan σ (List UInt8 × Int ⊕ List UInt8) := fun (s, n) => do
  let d ← R.readUtf8Character q
  let e ← getException
  if d ≥ 0 ∧ e = none then .inl <$> putCodepoint d (s, n) else pure (.inr s)

def endQuoted (a : List UInt8) : Scan σ Pass := do
  putEnd a
  let c ← getLastc
  symbol a c

theorem endQuoted_iff (a : List UInt8) (s : ScanState σ) : endQuoted a s = .error .buffer ↔ maxStrLen ≤ a.length :=
  putEnd_iff (m := (do
    let c ← getLastc
    symbol a c)) (fun _ => nofun) s

variable {a : List UInt8} {d : Int} {s t : ScanState σ} {fuel : Nat} {n : Int}

theorem quotedRounds_trap {e : Trap} (hread : R.readUtf8Character q s = .error e) :
    (rounds .rounds (quotedRound R q) (fuel + 1) (a, n) >>= endQuoted) s = .error e :=
  bind_of_error (rounds_of_error (bind_of_error hread))

theorem quotedRounds_end (hread : R.readUtf8Character q s = .ok (d, t)) (hend : ¬ (0 ≤ d ∧ t.bpException = none)) :
    (rounds .rounds (quotedRound R q) (fuel + 1) (a, n) >>= endQuoted) s = endQuoted a t := by
  apply bind_of_ok
  apply rounds_of_inr
  rw [quotedRound, bind_of_ok hread, bind_of_ok (a := t.bpException) (t := t) rfl, if_neg hend]
  rfl

theorem quotedRounds_char {b : List UInt8 × Int} {t' : ScanState σ} (hread : R.readUtf8Character q s = .ok (d, t))
    (hmore : 0 ≤ d ∧ t.bpException = none) (hput : putCodepoint d (a, n) t = .ok (b, t')) :
    (rounds .rounds (quotedRound R q) (fuel + 1) (a, n) >>= endQuoted) s =
      (rounds .rounds (quotedRound R q) fuel b >>= endQuoted) t' := by
  have hround : quotedRound R q (a, n) s = .ok (.inl b, t') := by
    rw [quotedRound, bind_of_ok hread, bind_of_ok (a := t.bpException) (t := t) rfl, if_pos hmore]
    exact map_of_ok hput
  show (rounds .rounds (quotedRound R q) (fuel + 1) (a, n) s >>= fun x => endQuoted x.1 x.2) =
    (rounds .rounds (quotedRound R q) fuel b t' >>= fun x => endQuoted x.1 x.2)
  rw [rounds_of_inl hround]

include h

theorem reads_taken (hread : R.readUtf8Character q s = .ok (d, t)) :
    (0 ≤ d → R.room t.source < R.room s.source) ∧ (s.bpException ≠ none → t.bpException ≠ none) := by
  constructor
  · intro hd
    have hrun := h.readUtf8Character q false (R.room s.source) s ⟨Nat.le_refl _, nofun⟩
    rw [hread] at hrun
    obtain ⟨hpos, hroom, -⟩ := hrun.2 hd
    omega
  · intro hexc
    have hrun := h.readUtf8Character q true (R.room s.source) s ⟨Nat.le_refl _, fun _ => hexc⟩
    rw [hread] at hrun
    exact hrun.1.2 rfl

theorem reads_ne_buffer {e : Trap} (hread : R.readUtf8Character q s = .error e) : e ≠ .buffer := by
  rintro rfl
  exact (h.reads q).not_buffer s hread

theorem quotedRounds_full (hread : R.readUtf8Character q s = .ok (d, t)) (hmore : 0 ≤ d ∧ t.bpException = none)
    (hfuel : 0 < fuel) (ha : a.length ≤ maxStrLen) (hfit : ¬ FitsAt a.length d) :
    (rounds .rounds (quotedRound R q) fuel (a, n) >>= endQuoted) { t with bpException := some .tok2long } = .error .buffer ↔
      Fills R q a.length s := by
  obtain ⟨fuel, rfl⟩ := Nat.exists_eq_succ_of_ne_zero (Nat.ne_of_gt hfuel)
  have hfills : Fills R q a.length s ↔ a.length = maxStrLen ∧
      ∃ r, R.readUtf8Character q { t with bpException := some .tok2long } = .ok r := by
    constructor
    · intro hfills
      cases hfills with
      | char hread' _ _ hfit' _ =>
        rw [hread] at hread'
        cases hread'
        exact absurd hfit' hfit
      | full hfull hread' hagain =>
        rw [hread] at hread'
        cases hread'
        exact ⟨hfull, hagain hmore⟩
    · exact fun hboth => Fills.full hboth.1 hread fun _ => hboth.2
  rw [hfills]
  cases hread' : R.readUtf8Character q { t with bpException := some .tok2long } with
  | error e =>
    rw [quotedRounds_trap hread']
    apply iff_of_false
    · intro heq
      cases heq
      exact reads_ne_buffer h hread' rfl
    · rintro ⟨-, r, hr⟩
      cases hr
  | ok r =>
    obtain ⟨d', t'⟩ := r
    have hexc := (reads_taken h hread').2 nofun
    rw [quotedRounds_end hread' fun hboth => hexc hboth.2, endQuoted_iff]
    exact ⟨fun hfull => ⟨le_antisymm ha hfull, _, rfl⟩, fun hboth => hboth.1.ge⟩

theorem quotedRounds_iff (hfuel : R.room s.source + 1 ≤ fuel) (ha : a.length ≤ maxStrLen) :
    (rounds .rounds (quotedRound R q) fuel (quotedState a) >>= endQuoted) s = .error .buffer ↔ Fills R q a.length s := by
  induction fuel generalizing a s with
  | zero => exact absurd hfuel (by omega)
  | succ fuel ih =>
    cases hread : R.readUtf8Character q s with
    | error e =>
      rw [quotedState, quotedRounds_trap hread]
      apply iff_of_false
      · intro heq
        cases heq
        exact reads_ne_buffer h hread rfl
      · intro hfills
        cases hfills with
        | char hread' _ _ _ _ =>
          rw [hread] at hread'
          cases hread'
        | full _ hread' _ =>
          rw [hread] at hread'
          cases hread'
    | ok r =>
      obtain ⟨d, t⟩ := r
      by_cases hmore : 0 ≤ d ∧ t.bpException = none
      · have hroom := (reads_taken h hread).1 hmore.1
        by_cases hfit : FitsAt a.length d
        · have hlen := length_append_codepointBytes a d
          have hrec := ih (a := a ++ codepointBytes d) (s := t) (by omega) (hlen ▸ hfit.le)
          rw [quotedState, quotedRounds_char hread hmore (putCodepoint_room hfit t), hrec, hlen]
          constructor
          · exact Fills.char hread hmore.1 hmore.2 hfit
          · intro hfills
            cases hfills with
            | char hread' _ _ _ hrest =>
              rw [hread] at hread'
              cases hread'
              exact hrest
            | full hfull _ _ => exact absurd hfit.le (by have := (codepointLength_le d).1; omega)
        · obtain ⟨n, hput⟩ := putCodepoint_full ha hfit t
          rw [quotedState, quotedRounds_char hread hmore hput]
          exact quotedRounds_full h hread hmore (by omega) ha hfit
      · rw [quotedState, quotedRounds_end hread hmore, endQuoted_iff]
        constructor
        · exact fun hfull => Fills.full (le_antisymm ha hfull) hread fun h => absurd h hmore
        · intro hfills
          cases hfills with
          | char hread' h0 hexc _ _ =>
            rw [hread] at hread'
            cases hread'
            exact absurd ⟨h0, hexc⟩ hmore
          | full hfull _ _ => exact hfull.ge

/-- The characters of a quoted atom up to its end, or to an error. -/
inductive QuotedText (R : Reader σ) (q : Int) : ScanState σ → List Int → Prop
  | stop {d : Int} {s t : ScanState σ} (hread : R.readUtf8Character q s = .ok (d, t))
      (hend : ¬ (0 ≤ d ∧ t.bpException = none)) : QuotedText R q s []
  | more {d : Int} {ds : List Int} {s t : ScanState σ} (hread : R.readUtf8Character q s = .ok (d, t))
      (hmore : 0 ≤ d ∧ t.bpException = none) (hrest : QuotedText R q t ds) : QuotedText R q s (d :: ds)

omit h in
theorem endQuoted_ok {p : Pass} {t' : ScanState σ} (hend : endQuoted a t = .ok (p, t')) :
    p = .token (.lower a) ∧ t'.bpException = t.bpException := by
  rcases lt_or_ge a.length maxStrLen with hlt | hge
  · have hput : putEnd a t = .ok ((), t) := by
      rw [putEnd, if_pos hlt]
      rfl
    rw [endQuoted, bind_of_ok hput] at hend
    cases hend
    exact ⟨rfl, rfl⟩
  · rw [(endQuoted_iff a t).2 hge] at hend
    cases hend

theorem quotedRounds_text {b : List UInt8} {t' : ScanState σ} (ha : a.length ≤ maxStrLen)
    (hrun : (rounds .rounds (quotedRound R q) fuel (quotedState a) >>= endQuoted) s = .ok (.token (.lower b), t'))
    (hexc : t'.bpException = none) : ∃ ds, QuotedText R q s ds ∧ b = a ++ ds.flatMap codepointBytes := by
  induction fuel generalizing a s with
  | zero => cases hrun
  | succ fuel ih =>
    cases hread : R.readUtf8Character q s with
    | error e =>
      rw [quotedState, quotedRounds_trap hread] at hrun
      cases hrun
    | ok r =>
      obtain ⟨d, t⟩ := r
      by_cases hmore : 0 ≤ d ∧ t.bpException = none
      · by_cases hfit : FitsAt a.length d
        · rw [quotedState, quotedRounds_char hread hmore (putCodepoint_room hfit t)] at hrun
          have hlen := length_append_codepointBytes a d
          obtain ⟨ds, hds, htext⟩ := ih (by rw [hlen]; exact hfit.le) hrun
          refine ⟨d :: ds, .more hread hmore hds, ?_⟩
          rw [htext, flatMap_cons, append_assoc]
        · obtain ⟨n, hput⟩ := putCodepoint_full ha hfit t
          rw [quotedState, quotedRounds_char hread hmore hput] at hrun
          cases fuel with
          | zero => cases hrun
          | succ fuel =>
            cases hread' : R.readUtf8Character q { t with bpException := some .tok2long } with
            | error e =>
              rw [quotedRounds_trap hread'] at hrun
              cases hrun
            | ok r =>
              obtain ⟨d', t2⟩ := r
              have hraised := (reads_taken h hread').2 nofun
              rw [quotedRounds_end hread' fun hboth => hraised hboth.2] at hrun
              exact absurd ((endQuoted_ok hrun).2 ▸ hexc) hraised
      · rw [quotedState, quotedRounds_end hread hmore] at hrun
        obtain ⟨hb, -⟩ := endQuoted_ok hrun
        cases hb
        exact ⟨[], .stop hread hmore, (append_nil b).symm⟩

theorem caseAtmqt_text {b : List UInt8} {t' : ScanState σ} (hrun : caseAtmqt R q s = .ok (.token (.lower b), t'))
    (hexc : t'.bpException = none) : ∃ ds, QuotedText R q s ds ∧ b = ds.flatMap codepointBytes :=
  quotedRounds_text h (a := []) (Nat.zero_le _) hrun hexc

theorem caseAtmqt_iff (s : ScanState σ) : caseAtmqt R q s = .error .buffer ↔ Fills R q 0 s :=
  quotedRounds_iff h (a := []) (Nat.le_succ _) (Nat.zero_le _)

end

/-! ## Passes -/

section
variable {R : Reader σ} {eof : Int} {src : Source σ} {s : ScanState σ} {c : Int}

theorem Grows.of_ok {α : Type} {j : Nat} {m : Scan σ α} (h : ∀ s, ∃ a, m s = .ok (a, s)) : Grows src j m := by
  intro raised k s hs
  obtain ⟨a, ha⟩ := h s
  rw [ha]
  exact hs.mono (Nat.le_add_right k j)

theorem grows_putEnd {a : List UInt8} (ha : a.length < maxStrLen) : Grows src 0 (putEnd a : Scan σ Unit) :=
  Grows.of_ok fun s => ⟨(), by rw [putEnd, if_pos ha]; rfl⟩

theorem grows_putOne (c : Int) {m : List UInt8 → Scan σ Pass} (hm : ∀ a, Grows src 0 (m a)) : Grows src 0 (do
      let s ← putChar [] c
      putEnd s
      m s) := by
  have hput : (putChar [] c : Scan σ (List UInt8)) = pure [toBYTE c] := funext fun s => putChar_room (by decide) c s
  rw [hput, pure_bind]
  exact (grows_putEnd (a := [toBYTE c]) (show 1 < maxStrLen by decide)).bind_left fun _ => hm _

theorem grows_quotedItem (fl : Flags) (d : Int) : Grows src 0 (quotedItem fl d) := by
  unfold quotedItem
  refine Grows.ite (fun _ => Grows.pure _) fun _ => Grows.of_ok fun s => ?_
  have hfit : FitsAt ([] : List UInt8).length d := by
    rcases le_or_gt d 127 with hd | hd
    · exact .inl ⟨hd, by decide⟩
    · exact .inr ⟨hd, by decide⟩
  have hlen : ([] ++ codepointBytes d).length < maxStrLen := by
    have hle := (codepointLength_le d).2
    rw [length_append_codepointBytes, length_nil]
    exact lt_of_le_of_lt (show 0 + codepointLength d ≤ 4 by omega) (by decide)
  have hend : putEnd ([] ++ codepointBytes d) s = .ok ((), s) := by
    rw [putEnd, if_pos hlen]
    rfl
  have hstate : quotedState ([] : List UInt8) = ([], (maxStrLen : Int)) := rfl
  refine ⟨.atom ([] ++ codepointBytes d), ?_⟩
  rw [← hstate, bind_of_ok (putCodepoint_room hfit s)]
  exact bind_of_ok hend

namespace QuietReader

variable (h : QuietReader R eof)
include h

theorem caseLisqt (fl : Flags) (c : Int) : Grows R.toSource 0 (caseLisqt R fl c) := by
  refine (Grows.loop (fun l => (h.reads c).bind_left fun d => ?_) []).bind_left fun _ => Grows.pure _
  have hget : Grows R.toSource 0 (getException : Scan σ (Option TokenError)) := Grows.of_ok fun s => ⟨_, rfl⟩
  exact hget.bind_left fun e => Grows.ite (fun _ => (grows_quotedItem fl d).bind_left fun _ => Grows.pure _)
    fun _ => Grows.pure _

theorem casePunct (fl : Flags) (c : Int) : Grows R.toSource 0 (casePunct R fl c) := by
  refine Grows.ite (fun _ => (grows_putEnd (by decide)).bind_left fun _ => Grows.endToken _ _) fun _ =>
    Grows.ite (fun _ => (h.com0plain _).map _) fun _ => h.source.getc_bind fun d => Grows.ite (fun _ => h.astcom d)
    fun _ => Grows.ite (fun _ => ?_) fun _ => grows_putOne c fun _ => Grows.endToken _ _
  have hput : (putText [] [ch '|', ch '|'] : Scan σ (List UInt8)) = pure ([ch '|', ch '|'].map toBYTE) :=
    funext fun s => putText_room (by decide) s
  rw [hput, pure_bind]
  exact (grows_putEnd (a := [ch '|', ch '|'].map toBYTE) (show 2 < maxStrLen by decide)).bind_left fun _ => Grows.endToken _ _

end QuietReader

theorem caseUpper_iff : caseUpper R c s = .error .buffer ↔ scanName R c s = .error .buffer := by
  cases hrun : scanName R c s with
  | error e =>
    rw [caseUpper, bind_of_error hrun]
    exact ⟨fun h => by cases h; rfl, fun h => by cases h; rfl⟩
  | ok r =>
    rw [caseUpper, bind_of_ok hrun]
    exact iff_of_false nofun nofun

theorem caseLower_iff : caseLower R c s = .error .buffer ↔ scanName R c s = .error .buffer := by
  cases hrun : scanName R c s with
  | error e =>
    rw [caseLower, bind_of_error hrun]
    exact ⟨fun h => by cases h; rfl, fun h => by cases h; rfl⟩
  | ok r =>
    rw [caseLower, bind_of_ok hrun]
    exact iff_of_false nofun nofun

theorem scanToken_iff (F : Feed R.toSource eof) (h : QuietReader R eof) (fl : Flags) {cs : List Int}
    (hat : F.At s.source cs) : scanToken R fl c s = .error .buffer ↔ TooLong R eof c cs s := by
  unfold scanToken TooLong
  cases hnul : R.atNul c with
  | true =>
    rw [if_pos rfl]
    exact iff_of_false nofun fun hlong => nomatch hlong.1
  | false =>
    rw [if_neg Bool.false_ne_true, and_iff_right rfl]
    cases ht : inTypeOf c with
    | none =>
      rw [bind_of_error (inType_miss F ht s)]
      exact iff_of_false nofun id
    | some t =>
      rw [bind_of_ok (inType_found F ht s)]
      have hname : t.code ≤ CharType.lower.code → isNameChar c = true := fun hcode =>
        (isNameChar_of_type ht).trans (decide_eq_true hcode)
      cases t with
      | digit => exact caseDigit_iff F h ht hat
      | brk => exact caseUpper_iff.trans (scanName_iff F (hname (by decide)) hat)
      | upper => exact caseUpper_iff.trans (scanName_iff F (hname (by decide)) hat)
      | lower => exact caseLower_iff.trans (scanName_iff F (hname (by decide)) hat)
      | sign => exact caseSign_iff F h hat
      | noble => exact caseNoble_iff F fl h ht hat
      | punct => exact iff_of_false ((h.casePunct fl c).not_buffer s) id
      | atmqt => exact caseAtmqt_iff h s
      | lisqt => exact iff_of_false ((h.caseLisqt fl c).not_buffer s) id
      | eoln => exact iff_of_false (h.eoln.not_buffer s) id
      | space =>
        have hspace : Grows R.toSource 0 (caseSpace R) :=
          h.source.getc_bind fun _ => (Grows.setLastc _).bind_left fun _ => Grows.pure _
        exact iff_of_false (hspace.not_buffer s) id
      | eofch => exact iff_of_false nofun id
      | dollar =>
        have hdollar : Grows R.toSource 0 (caseDollar c : Scan σ Pass) :=
          grows_putOne c fun _ => Grows.endToken _ _
        exact iff_of_false (hdollar.not_buffer s) id
      | strqt | chrqt | tilde | realo | rreal | rdigit => exact iff_of_false nofun id

end

/-! ## Behind the end of a string -/

section
variable {s : ScanState StringIn} {c : Int}

theorem stringGetc_past (h : s.source.past = true) : stringReader.getc s = .error .string := by
  obtain ⟨⟨before, rest, past⟩, lastc, e⟩ := s
  cases h
  rfl

theorem loop_error {α β : Type} {body : α → Scan StringIn (α ⊕ β)} {a : α} {e : Trap} (h : body a s = .error e) :
    stringReader.loop body a s = .error e := rounds_of_error h

theorem caseDigit_past (h : s.source.past = true) (hc : inTypeOf c = some .digit) :
    caseDigit stringReader c s = .error .string := by
  have hroom : keepDigit c = true → ([] : List UInt8).length < maxStrLen := fun _ => by decide
  by_cases h0 : c = ch '0'
  · rw [caseDigit, if_pos h0, bind_of_error (stringGetc_past h)]
  · rw [caseDigit, if_neg h0, scanNumber]
    apply bind_of_error
    show stringReader.loop (Feed.digitsRound stringReader) ([], c) s = _
    apply loop_error
    rw [Feed.digitsRound, bind_of_ok (inType_found (R := stringReader) stringFeed hc s), if_pos (.inl rfl),
      bind_of_ok (putDigit_room hroom s)]
    exact bind_of_error (stringGetc_past h)

theorem scanName_past (h : s.source.past = true) : scanName stringReader c s = .error .string := by
  obtain ⟨e, hwhen⟩ := when_setException ((maxStrLen : Int) - 1 < 0) .tok2long s
  apply bind_of_error
  show stringReader.loop (nameRound stringReader) ([], (maxStrLen : Int), c) s = _
  apply loop_error
  rw [nameRound, bind_of_ok hwhen, bind_of_ok (putChar_room (by decide) c _)]
  exact bind_of_error (stringGetc_past h)

theorem scanToken_past (fl : Flags) (h : s.source.past = true) : scanToken stringReader fl c s ≠ .error .buffer := by
  unfold scanToken
  cases hnul : stringReader.atNul c with
  | true =>
    rw [if_pos rfl]
    intro heq
    cases heq
  | false =>
    rw [if_neg Bool.false_ne_true]
    cases ht : inTypeOf c with
    | none =>
      rw [bind_of_error (inType_miss (R := stringReader) stringFeed ht s)]
      intro heq
      cases heq
    | some t =>
      rw [bind_of_ok (inType_found (R := stringReader) stringFeed ht s)]
      have hname : scanName stringReader c s ≠ .error .buffer := by
        rw [scanName_past h]
        intro heq
        cases heq
      cases t with
      | digit =>
        show caseDigit stringReader c s ≠ _
        rw [caseDigit_past h ht]
        intro heq
        cases heq
      | brk => exact caseUpper_iff.not.2 hname
      | upper => exact caseUpper_iff.not.2 hname
      | lower => exact caseLower_iff.not.2 hname
      | sign =>
        show caseSign stringReader c s ≠ _
        rw [caseSign, bind_of_ok (putChar_room (by decide) c s), bind_of_error (stringGetc_past h)]
        intro heq
        cases heq
      | noble =>
        obtain ⟨hdot, hcom⟩ := noble_ne ht
        show caseNoble stringReader fl c s ≠ _
        rw [caseNoble, endOrComment, if_neg hdot, if_neg fun hboth => hcom hboth.2,
          bind_of_ok (putChar_room (by decide) c s), bind_of_error (stringGetc_past h)]
        intro heq
        cases heq
      | punct => exact (quiet_stringReader.casePunct fl c).not_buffer s
      | atmqt =>
        have hread : stringReader.readUtf8Character c s = .error .string := bind_of_error (stringGetc_past h)
        show caseAtmqt stringReader c s ≠ _
        rw [Ne, caseAtmqt_iff quiet_stringReader]
        intro hfills
        cases hfills with
        | char hread' _ _ _ _ =>
          rw [hread] at hread'
          cases hread'
        | full _ hread' _ =>
          rw [hread] at hread'
          cases hread'
      | lisqt => exact (quiet_stringReader.caseLisqt fl c).not_buffer s
      | space =>
        show caseSpace stringReader s ≠ _
        rw [caseSpace, bind_of_error (stringGetc_past h)]
        intro heq
        cases heq
      | dollar =>
        have hdollar : Grows stringReader.toSource 0 (caseDollar c : Scan StringIn Pass) :=
          grows_putOne c fun _ => Grows.endToken _ _
        exact hdollar.not_buffer s
      | eoln | eofch | strqt | chrqt | tilde | realo | rreal | rdigit =>
        intro heq
        cases heq

end

/-! ## Runs -/

section
variable (R : Reader σ) (fl : Flags)

/-- `START` is reached with the character `c` in the calls from `s0` on. -/
inductive AtStart (s0 : ScanState σ) : Int → ScanState σ → Prop
  | first : AtStart s0 s0.lastc { s0 with bpException := none }
  | start {c c' : Int} {s t : ScanState σ} (h : AtStart s0 c s) (hpass : scanToken R fl c s = .ok (.start c', t)) :
      AtStart s0 c' t
  | eoln {c c' : Int} {s t : ScanState σ} (h : AtStart s0 c s) (hpass : scanToken R fl c s = .ok (.eoln c', t)) :
      AtStart s0 c' t
  /-- The next call. -/
  | call {c : Int} {tok : Token} {s t : ScanState σ} (h : AtStart s0 c s)
      (hpass : scanToken R fl c s = .ok (.token tok, t)) (hexc : t.bpException = none) (hmore : tok ≠ .eofch) :
      AtStart s0 t.lastc { t with bpException := none }

variable {R fl} {s0 : ScanState σ}

section
variable (h : ∀ c s, AtStart R fl s0 c s → scanToken R fl c s ≠ .error .buffer)
include h

theorem getTokenFrom_run (fuel n : Nat) {c : Int} {s : ScanState σ} (hat : AtStart R fl s0 c s) :
    (getTokenFrom R fl fuel c n s).result ≠ .error .buffer ∧
      ∀ tok t, (getTokenFrom R fl fuel c n s).result = .ok (some tok, t) → t.bpException = none → tok ≠ .eofch →
        AtStart R fl s0 t.lastc { t with bpException := none } := by
  induction fuel generalizing c n s with
  | zero =>
    refine ⟨fun heq => ?_, fun tok t heq => ?_⟩
    · cases heq
    · cases heq
  | succ fuel ih =>
    have hpass := h c s hat
    unfold getTokenFrom
    cases hrun : scanToken R fl c s with
    | error e =>
      rw [hrun] at hpass
      refine ⟨fun heq => hpass ?_, fun tok t heq => ?_⟩
      · cases heq
        rfl
      · cases heq
    | ok r =>
      obtain ⟨p, t⟩ := r
      cases p with
      | start c' => exact ih _ (.start hat hrun)
      | eoln c' => exact ih _ (.eoln hat hrun)
      | token tok =>
        refine ⟨fun heq => ?_, fun tok' t' heq hexc hmore => ?_⟩
        · cases heq
        · cases heq
          exact .call hat hrun hexc hmore
      | error =>
        refine ⟨fun heq => ?_, fun tok t heq => ?_⟩
        · cases heq
        · cases heq

theorem reading_run {k : Nat} {s : ScanState σ}
    (hat : AtStart R fl s0 s.lastc { s with bpException := none }) (n : Nat) :
    (n, Outcome.trap .buffer) ∉ reading R fl k s := by
  induction k generalizing s with
  | zero => exact not_mem_nil
  | succ k ih =>
    obtain ⟨hok, hnext⟩ := getTokenFrom_run h (R.room s.source + 3) 0 hat
    rw [reading]
    cases hresult : (getToken R fl s).result with
    | error e =>
      rw [Call.outcomes_trap hresult, mem_singleton]
      intro heq
      cases heq
      exact hok hresult
    | ok r =>
      obtain ⟨tok, t⟩ := r
      cases tok with
      | none =>
        rw [Call.outcomes_error hresult, mem_singleton]
        nofun
      | some tok =>
        by_cases hexc : t.bpException = none
        · rw [Call.outcomes_token hresult hexc, mem_cons, not_or]
          refine ⟨nofun, ?_⟩
          split_ifs with heof
          · exact not_mem_nil
          · exact ih (hnext tok t hresult hexc heof)
        · rw [Call.outcomes_raised hresult (Option.isSome_iff_ne_none.2 hexc), mem_singleton]
          nofun

end

end

/-- The tokens in a file that are written outside `AtomStr`. -/
def TooLongInFile (c : Int) (s : ScanState (List UInt8)) : Prop := TooLong fileReader (-1) c (fileChars s.source) s

def TooLongInString (c : Int) (s : ScanState StringIn) : Prop :=
  s.source.past = false ∧ TooLong stringReader 0 c (stringChars s.source.rest) s

theorem scanToken_file_iff (fl : Flags) (c : Int) (s : ScanState (List UInt8)) :
    scanToken fileReader fl c s = .error .buffer ↔ TooLongInFile c s :=
  scanToken_iff (R := fileReader) fileFeed quiet_fileReader fl rfl

theorem scanToken_string_iff (fl : Flags) (c : Int) (s : ScanState StringIn) :
    scanToken stringReader fl c s = .error .buffer ↔ TooLongInString c s := by
  cases hpast : s.source.past with
  | true => exact iff_of_false (scanToken_past fl hpast) fun hlong => nomatch hpast.symm.trans hlong.1
  | false =>
    unfold TooLongInString
    rw [and_iff_right hpast]
    exact scanToken_iff (R := stringReader) stringFeed quiet_stringReader fl ⟨hpast, rfl⟩

/-- A pass over a token writes outside `AtomStr` exactly when the token is too long, and calls on a text in which no pass
meets such a token do not. A quoted atom that is read without an error has all its characters. -/
theorem atomStr_bound (fl : Flags) : (∀ c s, scanToken fileReader fl c s = .error .buffer ↔ TooLongInFile c s) ∧
    (∀ c s, scanToken stringReader fl c s = .error .buffer ↔ TooLongInString c s) ∧
    (∀ text, (∀ c s, AtStart fileReader fl (fileStart text) c s → ¬ TooLongInFile c s) →
      ∀ k n, (n, Outcome.trap .buffer) ∉ fileReading fl k text) ∧
    (∀ text, (∀ c s, AtStart stringReader fl (stringStart text) c s → ¬ TooLongInString c s) →
      ∀ k, Outcome.trap .buffer ∉ stringReading fl k text) ∧
    (∀ q s a t, caseAtmqt fileReader q s = .ok (.token (.lower a), t) → t.bpException = none →
      ∃ ds, QuotedText fileReader q s ds ∧ a = ds.flatMap codepointBytes) ∧
    ∀ q s a t, caseAtmqt stringReader q s = .ok (.token (.lower a), t) → t.bpException = none →
      ∃ ds, QuotedText stringReader q s ds ∧ a = ds.flatMap codepointBytes := by
  refine ⟨scanToken_file_iff fl, scanToken_string_iff fl, fun text h k n => ?_, fun text h k => ?_,
    fun q s a t => caseAtmqt_text quiet_fileReader, fun q s a t => caseAtmqt_text quiet_stringReader⟩
  · exact reading_run (fun c s hat => (scanToken_file_iff fl c s).not.2 (h c s hat)) .first n
  · unfold stringReading
    rw [mem_map]
    rintro ⟨⟨n, o⟩, hmem, rfl⟩
    exact reading_run (fun c s hat => (scanToken_string_iff fl c s).not.2 (h c s hat)) .first n hmem

theorem numberSlots_replicate (k : Nat) : k + 1 ≤ numberSlots (-1) (49 :: List.replicate k 49) := by
  have hkeep : ∀ n, (List.replicate n (49 : Int)).countP (fun c => c ≠ ch '_') = n := by
    intro n
    rw [countP_replicate, if_pos (by decide)]
  have hslots : digitSlots (49 :: List.replicate k 49) = k + 1 := by
    rw [← replicate_succ, digitSlots, takeWhile_replicate, if_pos (by decide)]
    exact hkeep (k + 1)
  have hdecimal : ¬ (49 : Int) = ch '0' := by decide
  rw [numberSlots, if_neg fun hboth => hdecimal hboth.1, hslots]
  exact Nat.le_add_right _ _

/-- A decimal of 8193 digits. -/
theorem atomStr_bound_8193 : ¬ ∀ (fl : Flags) (text : List UInt8) (k n : Nat),
    (n, Outcome.trap .buffer) ∉ fileReading fl k text := by
  intro h
  obtain ⟨k, hk⟩ : ∃ k, k = maxStrLen := ⟨_, rfl⟩
  have hchars : fileChars (List.replicate (k + 1) 49) = 49 :: List.replicate k 49 := by
    rw [fileChars, map_replicate, replicate_succ]
    rfl
  have hready := ready_fileStart (List.replicate (k + 1) 49)
  rw [hchars] at hready
  obtain ⟨s, fuel, hcur, -, hcall⟩ := Feed.getToken_ready (R := fileReader) fileFeed ⟨1, 0⟩ rfl hready
  have hlong : TooLong fileReader (-1) 49 (List.replicate k 49) s := by
    refine ⟨rfl, ?_⟩
    show maxStrLen < numberSlots (-1) (49 :: List.replicate k 49)
    have hslots := numberSlots_replicate k
    omega
  have hpass := (scanToken_iff (R := fileReader) fileFeed quiet_fileReader ⟨1, 0⟩ hcur.2).2 hlong
  have hresult : (getToken fileReader ⟨1, 0⟩ (fileStart (List.replicate (k + 1) 49))).result = .error .buffer := by
    rw [hcall]
    exact Feed.getTokenFrom_trap hpass
  refine h ⟨1, 0⟩ (List.replicate (k + 1) 49) 1
    (getToken fileReader ⟨1, 0⟩ (fileStart (List.replicate (k + 1) 49))).eolns ?_
  show _ ∈ reading fileReader ⟨1, 0⟩ 1 _
  rw [reading, Call.outcomes_trap hresult]
  exact mem_singleton_self _

end Picat
