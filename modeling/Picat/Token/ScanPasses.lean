import Picat.Token.InStep

/-!
# Numbers in step

The case `DIGIT` of the tokenizers over two readers in step.
-/

namespace Picat
open Simulation

variable {σ τ : Type}

variable {base : Int}

theorem baseOf_le {d base : Int} (h : baseOf d = some base) : base ≤ 16 := by
  unfold baseOf at h
  split_ifs at h <;> cases h <;> decide

namespace InStep

variable {L : Link σ τ} {R : Reader σ} {R' : Reader τ} {fl : Flags} (h : InStep L R R' fl)
  {P : ScanState σ → ScanState τ → Prop} {e : Bool} {k m : Nat} {c c' : Int}

include h

theorem nextDigit_sim : InRun (L.Near R.room e k) (nextDigit R) (nextDigit R') (L.Look R.room e k) := by
  unfold nextDigit
  refine h.getc_bind fun c c' _ => ?_
  refine h.loop (fun j c c' s s' => j ≤ k ∧ L.Look R.room e j c c' s s') (fun s s' hP => hP.enter) fun j c c' => ?_
  refine Sim.and fun hj => Sim.of_pre (fun _ _ hP => hP.1) fun hc => ?_
  refine Sim.ite (fun _ _ _ => h.char hc _ (by decide) (by decide)) (fun hu _ => ?_) fun _ _ => ?_
  · exact (h.next (by rw [hu]; decide)).map fun _ _ _ _ hL => ⟨j - 1, by omega, by omega, hL.2⟩
  · exact Sim.pure fun _ _ hP => hP.mono hj

theorem nextBeside {γ δ δ' : Type} {Q : δ → δ' → ScanState σ → ScanState τ → Prop} (hc : c ≠ -1) (a : γ) :
    InRun (L.Look R.room e k c c') (do let c ← R.getc; pure (.inl (a, c))) (do let c ← R'.getc; pure (.inl (a, c)))
      (Goes (L.Beside R.room e) Q k) :=
  h.next_bind hc fun hk d d' _ => Sim.pure fun _ _ hP => ⟨k - 1, by omega, rfl, hP⟩

/-! ## Numbers with a base letter -/

theorem baseTail_sim {γ : Type} (hbase : base ≤ 16) (hc : 1 ≤ c) (a : γ) {t : Token} (ht : t ≠ .eofch)
    {I : Nat → γ × Int → γ × Int → ScanState σ → ScanState τ → Prop}
    (hI : ∀ d, 1 ≤ d → ∀ s s', L.Look R.room e (k - 1) d d s s' → I (k - 1) (a, d) (a, d) s s') :
    InRun (L.Look R.room e k c c) (do
        let c ← nextDigit R
        let v ← R.digVal c
        if v ≥ 0 ∧ v < base then pure (.inl (a, c)) else if v < 99 then .inr <$> fail .integer
          else .inr <$> endToken c t)
      (do
        let c ← nextDigit R'
        let v ← R'.digVal c
        if v ≥ 0 ∧ v < base then pure (.inl (a, c)) else if v < 99 then .inr <$> fail .integer
          else .inr <$> endToken c t)
      (Goes I (L.PassRel R.room m) k) := by
  refine (SourceStep.after (by omega) fun _ => h.nextDigit_sim).bind fun d d' => Sim.and fun hk => ?_
  refine Sim.of_pre (fun _ _ hP => hP.1) fun hd => h.digVal_bind hd fun v v' hv => ?_
  rw [hv.val]
  refine Sim.ite (fun _ _ _ => Iff.rfl) (fun hlt _ => ?_) fun _ _ => ?_
  · obtain ⟨hd1, -, rfl, -⟩ := hv.eq_of_lt (by omega)
    exact Sim.pure fun s s' hP => ⟨k - 1, by omega, hI d' hd1 s s' hP⟩
  · apply Sim.ite (fun _ _ _ => Iff.rfl) (fun _ _ => (fail_sim _ _).ends)
    intro _ _
    exact (endToken_sim ht).ends

theorem scanBaseBigint_sim (hbase : base ≤ 16) (radInt : Term) (hc : 1 ≤ c) :
    InRun (L.Look R.room false k c c) (scanBaseBigint R base radInt c) (scanBaseBigint R' base radInt c)
      (L.PassRel R.room m) := by
  unfold scanBaseBigint
  -- both are at the same digit
  refine h.loop (fun j a a' s s' => (a' = a ∧ 1 ≤ a.2) ∧ L.Look R.room false j a.2 a.2 s s')
    (fun s s' hP => ⟨hP.enter.1, hP.enter.2.imp fun j hj => ⟨hj.1, ⟨rfl, hc⟩, hj.2.2⟩⟩) ?_
  intro j ⟨radInt, c⟩ a'
  refine Sim.and fun ⟨ha, hc⟩ => ?_
  subst ha
  refine Sim.of_pre (fun _ _ hP => hP.1) fun hcc => h.digVal_bind hcc fun v v' hv => ?_
  rw [hv.val]
  dsimp only
  cases bigintStep radInt base v with
  | error err => exact (fail_sim _ _).ends
  | ok radInt => exact h.baseTail_sim hbase hc radInt (by nofun) fun d hd s s' hP => ⟨⟨rfl, hd⟩, hP⟩

theorem scanBaseDigits_sim (hbase : base ≤ 16) (hc : 1 ≤ c) :
    InRun (L.Look R.room false k c c) (scanBaseDigits R base c) (scanBaseDigits R' base c) (L.PassRel R.room m) := by
  unfold scanBaseDigits
  refine h.loop (fun j a a' s s' => (a' = a ∧ 1 ≤ a.2) ∧ L.Look R.room false j a.2 a.2 s s')
    (fun s s' hP => ⟨hP.enter.1, hP.enter.2.imp fun j hj => ⟨hj.1, ⟨rfl, hc⟩, hj.2.2⟩⟩) ?_
  intro j ⟨oldv, c⟩ a'
  refine Sim.and fun ⟨ha, hc⟩ => ?_
  subst ha
  refine Sim.of_pre (fun _ _ hP => hP.1) fun hcc => h.digVal_bind hcc fun v v' hv => ?_
  rw [hv.val]
  refine Sim.ite (fun _ _ _ => Iff.rfl) (fun _ _ => ?_) fun _ _ => ?_
  · exact (h.scanBaseBigint_sim hbase _ hc).ends
  · exact h.baseTail_sim hbase hc _ (by nofun) fun d hd s s' hP => ⟨⟨rfl, hd⟩, hP⟩

theorem scanBase_sim (hbase : base ≤ 16) :
    InRun (L.Near R.room false k) (scanBase R base) (scanBase R' base) (L.PassRel R.room m) := by
  unfold scanBase
  refine h.getc_bind fun c c' hc => h.digVal_bind hc fun v v' hv => ?_
  rw [hv.val]
  refine Sim.ite (fun _ _ _ => ?_) (fun _ _ => fail_sim _ _) fun hv0 _ => ?_
  · rw [h.char hc _ (by decide) (by decide)]
  · obtain ⟨hc1, -, rfl, -⟩ := hv.eq_of_lt (by omega)
    exact h.scanBaseDigits_sim hbase hc1

/-! ## Numbers with a radix -/

theorem endRadix_sim {t : Token} (ht : t ≠ .eofch) (hc : L.char c c') :
    InRun (L.Look R.room e k c c') (endRadix R t c) (endRadix R' t c') (L.PassRel R.room m) := by
  unfold endRadix
  refine Sim.ite (fun _ _ _ => h.char hc _ (by decide) (by decide)) (fun hr _ => ?_) fun _ _ => endToken_sim ht
  exact h.next_bind (by rw [hr]; decide) fun _ d d' _ => endToken_sim ht

theorem scanRadixBigint_sim (d : Int) (radInt : Term) :
    InRun (L.Look R.room false k c c') (scanRadixBigint R d radInt c) (scanRadixBigint R' d radInt c')
      (L.PassRel R.room m) := by
  unfold scanRadixBigint
  refine h.loop (L.Beside R.room false) (fun s s' hP => hP.beside radInt) ?_
  intro j ⟨radInt, c⟩ ⟨radInt', c'⟩
  apply Sim.and
  intro ha
  obtain rfl : radInt' = radInt := ha
  refine Sim.of_pre (fun _ _ hP => hP.1) fun hc => h.digVal_bind hc fun v v' hv => ?_
  rw [hv.val]
  refine Sim.ite (fun _ _ _ => Iff.rfl) (fun hlt _ => ?_) fun _ _ =>
    (h.endRadix_sim (by nofun) hc).ends
  obtain ⟨hc1, -, rfl, -⟩ := hv.eq_of_lt hlt
  refine Sim.ite (fun _ _ _ => Iff.rfl) (fun _ _ => ?_) fun _ _ => h.nextBeside (by omega) _
  apply Sim.ite (fun _ _ _ => Iff.rfl) (fun _ _ => (fail_sim _ _).ends)
  intro _ _
  dsimp only
  cases bigintStep radInt' d v with
  | error err => exact (fail_sim _ _).ends
  | ok radInt => exact h.nextBeside (by omega) radInt

theorem scanRadixDigits_sim (d : Int) :
    InRun (L.Look R.room false k c c') (scanRadixDigits R d c) (scanRadixDigits R' d c') (L.PassRel R.room m) := by
  unfold scanRadixDigits
  refine h.loop (L.Beside R.room false) (fun s s' hP => hP.beside 0) ?_
  intro j ⟨oldv, c⟩ ⟨oldv', c'⟩
  apply Sim.and
  intro ha
  obtain rfl : oldv' = oldv := ha
  refine Sim.of_pre (fun _ _ hP => hP.1) fun hc => h.digVal_bind hc fun v v' hv => ?_
  rw [hv.val]
  refine Sim.ite (fun _ _ _ => Iff.rfl) (fun hlt _ => ?_) fun _ _ =>
    (h.endRadix_sim (by nofun) hc).ends
  obtain ⟨hc1, -, rfl, -⟩ := hv.eq_of_lt hlt
  refine Sim.ite (fun _ _ _ => Iff.rfl) (fun _ _ => ?_) fun _ _ => h.nextBeside (by omega) _
  apply Sim.ite (fun _ _ _ => Iff.rfl) (fun _ _ => (fail_sim _ _).ends)
  intro _ _
  refine Sim.ite (fun _ _ _ => Iff.rfl) (fun _ _ => ?_) fun _ _ => h.nextBeside (by omega) _
  exact (h.scanRadixBigint_sim d _).ends

omit h in
theorem survives_endCharCode {alive : σ → Prop} (hgetc : Survives alive R.getc fun _ => True) (d : Int) :
    Survives alive (do let c ← R.getc; endRadix R (.rdigit d) c) fun p => ∃ t, p = .token t := by
  apply hgetc.bind
  intro c _
  have hend : ∀ c, Survives alive (endToken c (.rdigit d)) fun p => ∃ t, p = .token t := fun c =>
    (Survives.setLastc c).bind fun _ _ => Survives.pure ⟨_, rfl⟩
  unfold endRadix
  split_ifs
  · exact hgetc.bind fun c _ => hend c
  · exact hend c

theorem scanCharCode_sim : InRun (L.Near R.room false k) (scanCharCode R) (scanCharCode R') (L.PassRel R.room m) := by
  unfold scanCharCode
  refine (h.readUtf8Character false k singleQuote (by decide) (by decide)).bind fun d d' => Sim.or ?_ (Sim.and fun hd => ?_)
  · apply ((survives_endCharCode h.getcLeft d).inRun (survives_endCharCode h.getcRight d')).post
    rintro p p' s s' ⟨⟨t, rfl⟩, ⟨t', rfl⟩, hr⟩
    exact .inl hr
  · subst hd
    have hend : InRun (L.Near R.room false k) (do let c ← R.getc; endRadix R (.rdigit d') c)
        (do let c ← R'.getc; endRadix R' (.rdigit d') c) (L.PassRel R.room m) :=
      h.getc_bind fun c c' hc => h.endRadix_sim (by nofun) hc
    exact hend.pre fun s s' hP => ⟨hP.1, Nat.le_of_succ_le hP.2⟩

theorem scanRadix_sim (s : List UInt8) :
    InRun (L.Near R.room false k) (scanRadix R s) (scanRadix R' s) (L.PassRel R.room m) := by
  unfold scanRadix
  apply putEnd_bind
  cases radixOf 0 s with
  | none => exact fail_sim _ _
  | some d =>
    apply Sim.ite (fun _ _ _ => Iff.rfl) (fun _ _ => h.scanCharCode_sim)
    intro _ _
    exact h.getc_bind fun c c' _ => h.scanRadixDigits_sim d

/-! ## Reals -/

omit h in
theorem putDigit_bind {α β : Type} {Q : α → β → ScanState σ → ScanState τ → Prop} {s : List UInt8}
    {f : List UInt8 → Scan σ α} {f' : List UInt8 → Scan τ β} (hf : ∀ s, InRun P (f s) (f' s) Q) :
    InRun P (putDigit s c >>= f) (putDigit s c >>= f') Q := by
  have hput : InRun P (putDigit s c) (putDigit s c) fun s1 s1' t t' => s1' = s1 ∧ P t t' :=
    Sim.ite (fun _ _ _ => Iff.rfl) (fun _ _ => putChar_sim s c) fun _ _ => Sim.pure fun _ _ hP => ⟨rfl, hP⟩
  exact hput.bind_eq hf

theorem scanFraction_sim (s : List UInt8) (hd : 1 ≤ c) :
    InRun (L.Look R.room e k c c) (scanFraction R s c) (scanFraction R' s c) (L.Beside R.room e k) := by
  unfold scanFraction
  refine h.loop (fun j a a' s s' => (j ≤ k ∧ a' = a ∧ 1 ≤ a.2) ∧ L.Look R.room e j a.2 a.2 s s')
    (fun s s' hP => ⟨hP.enter.1, hP.enter.2.imp fun j hj => ⟨hj.1, ⟨hj.2.1, rfl, hd⟩, hj.2.2⟩⟩) ?_
  intro j ⟨s, d⟩ a'
  refine Sim.and fun ⟨hj, ha, hd⟩ => ?_
  subst ha
  refine putDigit_bind fun s => h.next_bind (by omega) fun hj0 d d' hd => h.inType_bind hd fun t t' ht => ?_
  refine Sim.ite (fun _ _ _ => ht.le_iff (by decide)) (fun hle _ => ?_) fun _ _ => ?_
  · obtain ⟨hd1, -, rfl, rfl⟩ := ht.of_le (by decide) hle
    exact Sim.pure fun _ _ hP => ⟨j - 1, by omega, ⟨by omega, rfl, hd1⟩, hP⟩
  · exact Sim.pure fun _ _ hP => ⟨rfl, hP.mono (by omega)⟩

omit h in
theorem endReal_sim (s : List UInt8) :
    InRun (L.Look R.room e k c c') (endReal s c) (endReal s c') (L.PassRel R.room m) := by
  unfold endReal
  exact putEnd_bind (endToken_sim (by nofun))

theorem scanExponent_sim (s : List UInt8) (hc : L.char c c') :
    InRun (L.Look R.room e k c c') (scanExponent R s c) (scanExponent R' s c') (L.PassRel R.room m) := by
  unfold scanExponent
  apply h.inType_bind hc
  intro t t' ht
  refine Sim.ite (fun _ _ _ => ?_) (fun _ _ => fail_sim _ _) fun hle _ => ?_
  · have hle := ht.le_iff (n := CharType.brk.code) (by decide)
    omega
  · obtain ⟨hc1, -, rfl, rfl⟩ := ht.of_le (n := CharType.brk.code) (by decide) (by omega)
    refine (h.scanFraction_sim s hc1).bind fun ⟨s, d⟩ ⟨s', d'⟩ => Sim.and fun ha => ?_
    obtain rfl : s' = s := ha
    exact endReal_sim s'

theorem scanReal_sim (s : List UInt8) (hd : 1 ≤ c) :
    InRun (L.Look R.room e k c c) (scanReal R s c) (scanReal R' s c) (L.PassRel R.room m) := by
  unfold scanReal
  refine putChar_bind fun s => (h.scanFraction_sim s hd).bind fun ⟨s, d⟩ ⟨s', d'⟩ => Sim.and fun ha => ?_
  obtain rfl : s' = s := ha
  apply Sim.of_pre (fun _ _ hP => hP.1)
  intro hd
  have heq := h.char hd
  refine Sim.ite (fun _ _ _ => ?_) (fun he _ => ?_) fun _ _ => endReal_sim s'
  · rw [heq _ (by decide) (by decide), heq _ (by decide) (by decide)]
  refine putChar_bind fun s => h.next_bind ?_ fun _ d d' hd => ?_
  · show d ≠ -1
    rcases he with rfl | rfl <;> decide
  refine Sim.ite (fun _ _ _ => h.char hd _ (by decide) (by decide)) (fun hs hs' => ?_) fun _ _ => ?_
  · rw [hs, hs']
    exact putChar_bind fun s => h.next_bind (by decide) fun _ d d' hd => h.scanExponent_sim s hd
  refine Sim.ite (fun _ _ _ => h.char hd _ (by decide) (by decide)) (fun hs _ => ?_) fun _ _ =>
    h.scanExponent_sim s hd
  exact h.next_bind (by rw [hs]; decide) fun _ d d' hd => h.scanExponent_sim s hd

/-! ## Decimal numbers -/

omit h in
theorem endDigits_sim (s : List UInt8) (hP : ∀ s s', P s s' → L.char c c' ∧ ∃ e, L.Rel e s s') :
    InRun P (endDigits s c) (endDigits s c') (L.PassRel R.room m) := by
  unfold endDigits
  exact putEnd_bind (token_sim (by nofun) hP)

theorem scanDigits_sim (s : List UInt8) :
    InRun (L.Look R.room e k c c') (scanDigits R s c) (scanDigits R' s c') (L.Beside R.room e k) := by
  unfold scanDigits
  refine h.loop (fun j a a' s s' => j ≤ k ∧ L.Beside R.room e j a a' s s')
    (fun s s' hP => ⟨hP.enter.1, hP.enter.2.imp fun j hj => ⟨hj.1, hj.2.1, rfl, hj.2.2⟩⟩) ?_
  intro j ⟨s, c⟩ ⟨s', c'⟩
  refine Sim.and fun hj => Sim.and fun ha => ?_
  obtain rfl : s' = s := ha
  refine Sim.of_pre (fun _ _ hP => hP.1) fun hc => h.inType_bind hc fun t t' ht => ?_
  refine Sim.ite (fun _ _ _ => ?_) (fun hdig _ => ?_) fun _ _ => ?_
  · rw [ht.eq_iff (by decide) (by decide), h.char hc _ (by decide) (by decide)]
  · obtain ⟨hc1, -, rfl, -⟩ := ht.1.resolve_left fun ⟨hc, ht, _⟩ => by
      rcases hdig with hdig | hu
      · cases ht.symm.trans hdig
      · exact absurd (hc.symm.trans hu) (by decide)
    exact putDigit_bind fun s => h.next_bind (by omega) fun hj0 d d' _ =>
      Sim.pure fun _ _ hP => ⟨j - 1, by omega, by omega, rfl, hP⟩
  · exact Sim.pure fun _ _ hP => ⟨rfl, hP.mono hj⟩

theorem scanNumber_sim (s : List UInt8) :
    InRun (L.Look R.room false k c c') (scanNumber R s c) (scanNumber R' s c') (L.PassRel R.room m) := by
  unfold scanNumber
  refine (h.scanDigits_sim s).bind fun ⟨s, c⟩ ⟨s', c'⟩ => Sim.and fun ha => ?_
  obtain rfl : s' = s := ha
  apply Sim.of_pre (fun _ _ hP => hP.1)
  intro hc
  refine Sim.ite (fun _ _ _ => h.char hc _ (by decide) (by decide)) (fun hr _ => ?_) fun _ _ => ?_
  · exact (h.scanRadix_sim s').pre fun _ _ hP => hP.near
  refine Sim.ite (fun _ _ _ => h.char hc _ (by decide) (by decide)) (fun hp _ => ?_) fun _ _ =>
    endDigits_sim s' fun _ _ hP => ⟨hP.1, _, hP.2.1⟩
  apply ((h.getc false (k - 1)).pre fun _ _ hP => (hP.next (c := c) (by rw [hp]; decide)).2).bind
  intro d d'
  refine Sim.of_pre (fun _ _ hP => hP.1.1) fun hd => h.inType_bind hd fun t t' ht => ?_
  refine Sim.ite (fun _ _ _ => ht.eq_iff (by decide) (by decide)) (fun hdig _ => ?_) fun _ _ => ?_
  · obtain ⟨hd1, -, rfl, -⟩ := ht.of_ne (by rw [hdig]; decide)
    exact (h.scanReal_sim s' hd1).pre fun _ _ hP => hP.1
  · exact (h.ungetc false (k - 1) d d').bind fun _ _ => endDigits_sim s' fun _ _ hP => ⟨hc, _, hP.1⟩

theorem caseDigit_sim (hc : 1 ≤ c) :
    InRun (L.Look R.room false k c c) (caseDigit R c) (caseDigit R' c) (L.PassRel R.room m) := by
  unfold caseDigit
  refine Sim.ite (fun _ _ _ => Iff.rfl) (fun _ _ => ?_) fun _ _ => h.scanNumber_sim []
  apply h.next_bind (by omega)
  intro _ d d' hd
  have hbase : baseOf d' = baseOf d := by
    unfold baseOf
    have heq := h.char hd
    simp only [heq _ (show (1 : Int) ≤ ch 'b' by decide) (by decide), heq _ (show (1 : Int) ≤ ch 'B' by decide) (by decide),
      heq _ (show (1 : Int) ≤ ch 'o' by decide) (by decide), heq _ (show (1 : Int) ≤ ch 'O' by decide) (by decide),
      heq _ (show (1 : Int) ≤ ch 'x' by decide) (by decide), heq _ (show (1 : Int) ≤ ch 'X' by decide) (by decide)]
  rw [hbase]
  cases hb : baseOf d with
  | some base => exact (h.scanBase_sim (baseOf_le hb)).pre fun _ _ hP => hP.near
  | none => exact putChar_bind fun s => h.scanNumber_sim s

end InStep

end Picat

/-! # Passes in step -/

namespace Picat
open Simulation

variable {σ τ : Type}

def Link.Text (L : Link σ τ) (a a' : List UInt8 × Int) (s : ScanState σ) (s' : ScanState τ) : Prop :=
  a'.1 = a.1 ∧ L.char a.2 a'.2 ∧ ∃ e, L.Rel e s s'

section
variable {L : Link σ τ} {room : σ → Nat} {P : ScanState σ → ScanState τ → Prop} {e : Bool} {k m : Nat} {c c' : Int}

theorem when_sim {p : Prop} [Decidable p] (x : TokenError) :
    InRun (fun s s' => ∃ e, L.Look room e k c c' s s') (when p (setException x)) (when p (setException x))
      fun _ _ s s' => ∃ e, L.Look room e k c c' s s' :=
  Sim.ite (fun _ _ _ => Iff.rfl)
    (fun _ _ => Sim.modify fun _ _ ⟨_, hP⟩ => ⟨true, hP.1, ⟨hP.2.1.source, hP.2.1.lastc, rfl, rfl⟩, hP.2.2⟩)
    fun _ _ => Sim.pure fun _ _ hP => hP

theorem raisedToken_sim (t t' : Token) : InRun Raised (endToken c t) (endToken c' t') (L.PassRel room k) := by
  have hset : InRun Raised (setLastc c : Scan σ PUnit) (setLastc c' : Scan τ PUnit) fun _ _ => Raised :=
    Sim.modify fun _ _ h => h
  exact hset.bind fun _ _ => Sim.pure fun _ _ h => .inl h

theorem getException_sim : InRun P getException getException fun x x' s s' =>
    P s s' ∧ x = s.bpException ∧ x' = s'.bpException :=
  fun _ s' hP => ⟨s'.bpException, s', rfl, hP, rfl, rfl⟩

theorem getLastc_sim : InRun P getLastc getLastc fun c c' s s' => P s s' ∧ c = s.lastc ∧ c' = s'.lastc :=
  fun _ s' hP => ⟨s'.lastc, s', rfl, hP, rfl, rfl⟩

theorem Link.Rel.isNone_iff {s : ScanState σ} {s' : ScanState τ} (h : L.Rel e s s') :
    s.bpException = none ↔ s'.bpException = none := by
  rw [← Option.isNone_iff_eq_none, ← Option.isNone_iff_eq_none, ← Option.not_isSome, ← Option.not_isSome, h.left,
    h.right]

theorem putCodepoint_sim (d : Int) (a : List UInt8 × Int) :
    InRun (fun s s' => ∃ e, L.Near room e k s s') (putCodepoint d a) (putCodepoint d a) fun a1 a1' s s' =>
      a1' = a1 ∧ ∃ e, L.Near room e k s s' := by
  obtain ⟨s, n⟩ := a
  have hraise : InRun (fun s s' => ∃ e, L.Near room e k s s') (setException .tok2long) (setException .tok2long)
      fun _ _ s s' => ∃ e, L.Near room e k s s' :=
    Sim.modify fun _ _ ⟨_, hP⟩ => ⟨true, ⟨hP.1.source, hP.1.lastc, rfl, rfl⟩, hP.2⟩
  unfold putCodepoint
  refine Sim.ite (fun _ _ _ => Iff.rfl) (fun _ _ => ?_) fun _ _ => ?_
  · refine Sim.ite (fun _ _ _ => Iff.rfl) (fun _ _ => ?_) fun _ _ => ?_
    · exact hraise.bind fun _ _ => Sim.pure fun _ _ hP => ⟨rfl, hP⟩
    · exact putChar_bind fun s => Sim.pure fun _ _ hP => ⟨rfl, hP⟩
  · refine Sim.ite (fun _ _ _ => Iff.rfl) (fun _ _ => ?_) fun _ _ => ?_
    · exact hraise.bind fun _ _ => Sim.pure fun _ _ hP => ⟨rfl, hP⟩
    · exact putText_bind fun s => Sim.pure fun _ _ hP => ⟨rfl, hP⟩

end

namespace InStep

variable {L : Link σ τ} {R : Reader σ} {R' : Reader τ} {fl : Flags} (h : InStep L R R' fl)
  {P : ScanState σ → ScanState τ → Prop} {e : Bool} {k m : Nat} {c c' : Int}
include h

theorem scanName_sim (hc : 1 ≤ c) : InRun (L.Look R.room false k c c) (scanName R c) (scanName R' c) L.Text := by
  unfold scanName
  refine Sim.bind (Q := L.Text) ?_ fun ⟨s, c⟩ ⟨s', c'⟩ => Sim.and fun hs => ?_
  · refine h.loop (fun j a a' s s' => (a' = a ∧ 1 ≤ a.2.2) ∧ ∃ e, L.Look R.room e j a.2.2 a.2.2 s s')
      (fun s s' hP => ⟨hP.enter.1, hP.enter.2.imp fun j hj => ⟨hj.1, ⟨rfl, hc⟩, false, hj.2.2⟩⟩) ?_
    intro j ⟨s, n, c⟩ a'
    refine Sim.and fun ⟨ha, hc⟩ => ?_
    subst ha
    refine (when_sim _).bind fun _ _ => putChar_bind fun s => Sim.exists fun e => ?_
    refine h.next_bind (by omega) fun hj c c' hc => h.inType_bind hc fun t t' ht => ?_
    refine Sim.ite (fun _ _ _ => ht.le_iff (by decide)) (fun hle _ => ?_) fun _ _ => ?_
    · obtain ⟨hc1, -, rfl, -⟩ := ht.of_le (by decide) hle
      exact Sim.pure fun _ _ hP => ⟨j - 1, by omega, ⟨rfl, hc1⟩, e, hP⟩
    · exact Sim.pure fun _ _ hP => ⟨rfl, hP.1, e, hP.2.1⟩
  · obtain rfl : s' = s := hs
    exact putEnd_bind (Sim.pure fun _ _ hP => ⟨rfl, hP⟩)

theorem caseUpper_sim (hc : 1 ≤ c) :
    InRun (L.Look R.room false k c c) (caseUpper R c) (caseUpper R' c) (L.PassRel R.room m) := by
  unfold caseUpper
  refine (h.scanName_sim hc).bind fun ⟨s, c⟩ ⟨s', c'⟩ => Sim.and fun hs => ?_
  obtain rfl : s' = s := hs
  exact token_sim (by nofun) fun _ _ hP => hP

theorem caseLower_sim (hc : 1 ≤ c) :
    InRun (L.Look R.room false k c c) (caseLower R c) (caseLower R' c) (L.PassRel R.room m) := by
  unfold caseLower
  refine (h.scanName_sim hc).bind fun ⟨s, c⟩ ⟨s', c'⟩ => Sim.and fun hs => ?_
  obtain rfl : s' = s := hs
  exact token_sim (by nofun) fun _ _ hP => hP

/-! ## Signs and punctuation -/

theorem astcom_sim : InRun (L.Near R.room false k) (astcom R intab.astcom) (astcom R' intab.astcom)
    (L.PassRel R.room k) := by
  unfold astcom
  apply (h.com2plain k).bind_eq
  intro b
  refine Sim.ite (fun _ _ _ => Iff.rfl) (fun hb _ => ?_) fun hb _ => ?_
  · have hstart : InRun (L.Near R.room false k) (do let c ← R.getc; pure (.start c)) (do let c ← R'.getc; pure (.start c))
        (L.PassRel R.room k) := h.getc_bind fun _ _ _ => Sim.pure fun _ _ hP => hP.start
    exact hstart.pre fun s s' hP => by rwa [if_pos hb] at hP
  · exact Sim.pure fun s s' hP => by rwa [if_neg hb] at hP

theorem scanSigns_sim (s : List UInt8) (n : Int) (c : Int) {d d' : Int} :
    InRun (fun s s' => ∃ e, L.Look R.room e k d d' s s') (scanSigns R s n c d) (scanSigns R' s n c d')
      (L.PassRel R.room m) := by
  unfold scanSigns
  refine Sim.bind (Q := L.Text) ?_ fun ⟨s, d⟩ ⟨s', d'⟩ => Sim.and fun hs => ?_
  · refine h.loop (fun j a a' s s' => (a'.1 = a.1 ∧ a'.2.1 = a.2.1) ∧ ∃ e, L.Look R.room e j a.2.2 a'.2.2 s s')
      (fun s s' ⟨e, hP⟩ => ⟨hP.enter.1, hP.enter.2.imp fun j hj => ⟨hj.1, ⟨rfl, rfl⟩, e, hj.2.2⟩⟩) ?_
    intro j ⟨s, n, d⟩ ⟨s', n', d'⟩
    refine Sim.and fun ⟨hs, hn⟩ => ?_
    obtain rfl : s' = s := hs
    obtain rfl : n' = n := hn
    refine Sim.of_pre (fun _ _ ⟨_, hP⟩ => hP.1) fun hd => h.inType_bind hd fun t t' ht => ?_
    refine Sim.ite (fun _ _ _ => ht.eq_iff (by decide) (by decide)) (fun hsign _ => ?_) fun _ _ => ?_
    · obtain ⟨hd1, -, rfl, -⟩ := ht.of_ne (by rw [hsign]; decide)
      refine (when_sim _).bind fun _ _ => putChar_bind fun s => Sim.exists fun e => ?_
      exact h.next_bind (show d' ≠ -1 by omega) fun hj d d' _ =>
        Sim.pure fun _ _ hP => ⟨j - 1, by omega, ⟨rfl, rfl⟩, e, hP⟩
    · exact Sim.pure fun _ _ ⟨e, hP⟩ => ⟨rfl, hP.1, e, hP.2.1⟩
  · obtain rfl : s' = s := hs
    refine putEnd_bind (Sim.of_pre (fun _ _ hP => hP.1) fun hd => h.inType_bind hd fun t t' ht => ?_)
    refine Sim.ite (fun _ _ _ => ?_) (fun _ _ => token_sim (by nofun) fun _ _ hP => hP) fun _ _ =>
      token_sim (by nofun) fun _ _ hP => hP
    have hle := ht.le_iff (n := 11) (by decide)
    have h12 : CharType.space.code = 12 := rfl
    rw [h12]
    constructor
    · intro hp
      obtain ⟨ht12, hrest⟩ := hp
      exact ⟨by omega, hrest⟩
    · intro hp
      obtain ⟨ht12, hrest⟩ := hp
      exact ⟨by omega, hrest⟩

theorem labSign_sim (s : List UInt8) {d d' : Int} (hd : L.char d d') :
    InRun (L.Look R.room false k d d') (labSign R s c d) (labSign R' s c d') (L.PassRel R.room k) := by
  have hsigns : ∀ s n, InRun (L.Look R.room false k d d') (scanSigns R s n c d) (scanSigns R' s n c d')
      (L.PassRel R.room k) := fun s n => (h.scanSigns_sim s n c).pre fun _ _ hP => ⟨false, hP⟩
  have heq := h.char hd
  unfold labSign
  refine Sim.ite (fun _ _ _ => ?_) (fun hcom hcom' => ?_) fun _ _ => ?_
  · rw [heq _ (by decide) (by decide)]
  · rw [hcom.2, hcom'.2]
    exact h.astcom_sim.pre fun _ _ hP => hP.near
  refine Sim.ite (fun _ _ _ => Iff.rfl) (fun _ _ => ?_) fun _ _ => ?_
  · refine Sim.ite (fun _ _ _ => heq _ (by decide) (by decide)) (fun hdot hdot' => ?_) fun _ _ => hsigns _ _
    rw [hdot, hdot']
    refine putChar_bind fun s => h.next_bind (by decide) fun _ d d' hd => ?_
    have heq := h.char hd
    refine Sim.ite (fun _ _ _ => ?_) (fun _ _ => putEnd_bind (endToken_sim (by nofun))) fun _ _ => ?_
    · rw [heq _ (by decide) (by decide), heq _ (by decide) (by decide)]
    · exact (h.scanSigns_sim s _ c).pre fun _ _ hP => ⟨false, hP⟩
  · refine Sim.ite (fun _ _ _ => ?_) (fun hbang hbang' => ?_) fun _ _ => hsigns _ _
    · rw [heq _ (by decide) (by decide)]
    rw [hbang.2, hbang'.2]
    refine Sim.bind ((when_sim _).pre fun _ _ hP => ⟨false, hP⟩) fun _ _ => putChar_bind fun s => Sim.exists fun e => ?_
    exact h.next_bind (by decide) fun _ d d' _ => (h.scanSigns_sim s _ c).pre fun _ _ hP => ⟨e, hP⟩

theorem caseSign_sim : InRun (L.Near R.room false k) (caseSign R c) (caseSign R' c) (L.PassRel R.room k) := by
  unfold caseSign
  exact putChar_bind fun s => h.getc_bind fun d d' hd => h.labSign_sim s hd

theorem endOrComment_sim {rest : Scan σ Pass} {rest' : Scan τ Pass}
    (hrest : InRun (L.Near R.room false k) rest rest' (L.PassRel R.room k)) :
    InRun (L.Near R.room false k) (endOrComment R fl c rest) (endOrComment R' fl c rest') (L.PassRel R.room k) := by
  unfold endOrComment
  refine Sim.ite (fun _ _ _ => Iff.rfl) (fun _ _ => putEnd_bind ?_) fun _ _ => ?_
  · exact token_sim (by nofun) fun _ _ hP => ⟨h.ascii (by decide) (by decide), false, hP.1⟩
  · exact Sim.ite (fun _ _ _ => Iff.rfl) (fun _ _ => (h.com0plain k).map fun _ _ _ _ hR => hR) fun _ _ => hrest

theorem caseNoble_sim : InRun (L.Near R.room false k) (caseNoble R fl c) (caseNoble R' fl c) (L.PassRel R.room k) := by
  refine h.endOrComment_sim (putChar_bind fun s => h.getc_bind fun d d' hd => ?_)
  apply Sim.ite (fun _ _ _ => h.char hd _ (by decide) (by decide)) (fun _ _ => h.labSign_sim s hd)
  intro _ _
  exact putEnd_bind (endToken_sim (by nofun))

theorem casePunct_sim : InRun (L.Near R.room false k) (casePunct R fl c) (casePunct R' fl c) (L.PassRel R.room k) := by
  refine h.endOrComment_sim (h.getc_bind fun d d' hd => ?_)
  have heq := h.char hd
  refine Sim.ite (fun _ _ _ => ?_) (fun hcom hcom' => ?_) fun _ _ => ?_
  · rw [heq _ (by decide) (by decide)]
  · rw [hcom.2, hcom'.2]
    exact h.astcom_sim.pre fun _ _ hP => hP.near
  refine Sim.ite (fun _ _ _ => ?_) (fun _ _ => ?_) fun _ _ => ?_
  · rw [heq _ (by decide) (by decide)]
  · refine putText_bind fun s => putEnd_bind (token_sim (by nofun) fun _ _ hP => ?_)
    exact ⟨h.ascii (by decide) (by decide), false, hP.2.1⟩
  · exact putChar_bind fun s => putEnd_bind (endToken_sim (by nofun))

/-! ## Quoted items -/

theorem quotedRound_sim {α β γ γ' : Type} {Q : γ → γ' → ScanState σ → ScanState τ → Prop} (hc : 1 ≤ c) (hc' : c ≤ 127)
    {I : Nat → α → β → ScanState σ → ScanState τ → Prop} {more : Int → Scan σ (α ⊕ γ)} {more' : Int → Scan τ (β ⊕ γ')}
    {x : γ} {x' : γ'}
    (hmore : ∀ d, 0 < k → InRun (fun s s' => ∃ e, L.Near R.room e (k - 1) s s') (more d) (more' d) (Goes I Q k))
    (hend : ∀ s s', Raised s s' ∨ L.Rel false s s' → Q x x' s s') :
    InRun (fun s s' => ∃ e, L.Near R.room e k s s') (do
        let d ← R.readUtf8Character c
        let e ← getException
        if d ≥ 0 ∧ e = none then more d else pure (.inr x))
      (do
        let d ← R'.readUtf8Character c
        let e ← getException
        if d ≥ 0 ∧ e = none then more' d else pure (.inr x'))
      (Goes I Q k) := by
  refine Sim.exists fun e => (h.readUtf8Character e k c hc hc').bind fun d d' => Sim.or ?_ (Sim.and fun hd => ?_)
  · refine getException_sim.bind fun y y' => Sim.of_pre (φ := y ≠ none ∧ y' ≠ none) ?_ fun ⟨hy, hy'⟩ => ?_
    · rintro s s' ⟨hfail, rfl, rfl⟩
      exact ⟨Option.isSome_iff_ne_none.1 hfail.1.1, Option.isSome_iff_ne_none.1 hfail.1.2⟩
    · rw [if_neg fun hd => hy hd.2, if_neg fun hd => hy' hd.2]
      exact Sim.pure fun s s' hP => hend s s' (.inl hP.1.1)
  · subst hd
    refine getException_sim.bind fun y y' => Sim.ite (fun s s' ⟨hP, hy, hy'⟩ => ?_) (fun _ _ => ?_) fun _ _ => ?_
    · rw [hy, hy', hP.1.isNone_iff]
    · exact Sim.of_pre (fun _ _ hP => Nat.lt_of_lt_of_le (Nat.succ_pos _) hP.1.2) fun hk =>
        (hmore d' hk).pre fun s s' hP => ⟨e, hP.1.1, Nat.le_sub_one_of_lt hP.1.2⟩
    · refine Sim.pure fun s s' hP => hend s s' ?_
      cases e
      · exact .inr hP.1.1
      · exact .inl hP.1.1.raised

omit h in
theorem quotedEnter {γ : Type} (a : γ) {s : ScanState σ} {s' : ScanState τ} (hP : L.Near R.room e k s s') :
    L.source s.source s'.source ∧ ∃ j ≤ R.room s.source + 1, a = a ∧ ∃ e, L.Near R.room e j s s' :=
  ⟨hP.1.source, R.room s.source, Nat.le_succ _, rfl, e, hP.1, le_refl _⟩

theorem caseAtmqt_sim (hc : 1 ≤ c) (hc' : c ≤ 127) :
    InRun (L.Near R.room false k) (caseAtmqt R c) (caseAtmqt R' c) (L.PassRel R.room m) := by
  unfold caseAtmqt
  refine Sim.bind_eq (T := fun _ s s' => Raised s s' ∨ L.Rel false s s') ?_ fun s => ?_
  · refine h.loop (fun j a a' s s' => a' = a ∧ ∃ e, L.Near R.room e j s s') (fun s s' hP => quotedEnter _ hP) ?_
    intro j ⟨s, n⟩ a'
    apply Sim.and
    intro ha
    subst ha
    refine h.quotedRound_sim hc hc' (fun d hj => ?_) fun s s' hP => ⟨rfl, hP⟩
    exact (putCodepoint_sim d _).map fun a a' s s' hP => ⟨j - 1, by omega, hP⟩
  · refine putEnd_bind (getLastc_sim.bind fun c c' => ?_)
    refine Sim.pre (P := fun s s' => Raised s s' ∨ (L.char c c' ∧ ∃ e, L.Rel e s s')) (Sim.or (raisedToken_sim _ _)
      (token_sim (by nofun) fun _ _ hP => hP)) ?_
    rintro s s' ⟨hP, rfl, rfl⟩
    exact hP.imp_right fun hrel => ⟨hrel.lastc, false, hrel⟩

omit h in
theorem quotedItem_sim (d : Int) : InRun (fun s s' => ∃ e, L.Near R.room e k s s') (quotedItem fl d) (quotedItem fl d)
    fun a a' s s' => a' = a ∧ ∃ e, L.Near R.room e k s s' := by
  unfold quotedItem
  apply Sim.ite (fun _ _ _ => Iff.rfl) (fun _ _ => Sim.pure fun _ _ hP => ⟨rfl, hP⟩)
  intro _ _
  exact (putCodepoint_sim d _).bind_eq fun a => putEnd_bind (Sim.pure fun _ _ hP => ⟨rfl, hP⟩)

theorem caseLisqt_sim (hc : 1 ≤ c) (hc' : c ≤ 127) :
    InRun (L.Near R.room false k) (caseLisqt R fl c) (caseLisqt R' fl c) (L.PassRel R.room m) := by
  unfold caseLisqt
  refine Sim.bind_eq (T := fun _ s s' => Raised s s' ∨ L.Rel false s s') ?_ fun l => ?_
  · refine h.loop (fun j l l' s s' => l' = l ∧ ∃ e, L.Near R.room e j s s') (fun s s' hP => quotedEnter _ hP) ?_
    intro j l l'
    apply Sim.and
    intro hl
    subst hl
    refine h.quotedRound_sim hc hc' (fun d hj => ?_) fun s s' hP => ⟨rfl, hP⟩
    exact (quotedItem_sim d).bind_eq fun a => Sim.pure fun s s' hP => ⟨j - 1, by omega, rfl, hP⟩
  · exact Sim.pure fun s s' hP => hP.imp_right fun hrel => ⟨hrel.calm, .inr ⟨by nofun, rfl, hrel⟩⟩

theorem caseSpace_sim : InRun (L.Near R.room false k) (caseSpace R) (caseSpace R') (L.PassRel R.room k) := by
  unfold caseSpace
  apply h.getc_bind
  intro c c' hc
  have hset : InRun (L.Look R.room false k c c') (setLastc (ch ' ')) (setLastc (ch ' ')) fun _ _ =>
      L.Look R.room false k c c' := by
    refine Sim.modify fun s s' ⟨hc, hrel, hroom⟩ => ⟨hc, ?_, hroom⟩
    exact ⟨hrel.source, h.ascii (c := ch ' ') (by decide) (by decide), hrel.left, hrel.right⟩
  exact hset.bind fun _ _ => Sim.pure fun _ _ hP => hP.start

theorem caseDollar_sim : InRun (L.Near R.room false k) (caseDollar c) (caseDollar c) (L.PassRel R.room m) := by
  unfold caseDollar
  refine putChar_bind fun s => putEnd_bind (token_sim (by nofun) fun _ _ hP => ?_)
  exact ⟨h.ascii (by decide) (by decide), false, hP.1⟩

theorem scanToken_sim (hc : L.char c c') :
    InRun (L.Start R.room k c c') (scanToken R fl c) (scanToken R' fl c') (L.PassRel R.room (k - 1)) := by
  by_cases hne : c = -1
  · subst hne
    exact (h.atEnd (k - 1) hc).pre fun s s' hP => ⟨hP.1, hP.2.1, fun hne => absurd rfl hne⟩
  have hlook : ∀ s s', L.Start R.room k c c' s s' → L.Look R.room false k c c' s s' := fun s s' hP => hP.2.2 hne
  have hnear : ∀ s s', L.Look R.room false k c c' s s' → L.Near R.room false (k - 1) s s' := fun s s' hP =>
    (hP.next hne).2
  refine Sim.pre ?_ hlook
  unfold scanToken
  rw [(h.atNul hc hne).1, (h.atNul hc hne).2, if_neg Bool.false_ne_true, if_neg Bool.false_ne_true]
  apply h.inType_bind hc
  intro t t' ht
  have hne' : t ≠ .eofch := fun heof => hne (ht.2 heof)
  obtain ⟨hc1, hc127, rfl, rfl⟩ := ht.of_ne hne'
  cases t' with
  | digit => exact h.caseDigit_sim hc1
  | brk => exact h.caseUpper_sim hc1
  | upper => exact h.caseUpper_sim hc1
  | lower => exact h.caseLower_sim hc1
  | sign => exact h.caseSign_sim.pre hnear
  | noble => exact h.caseNoble_sim.pre hnear
  | punct => exact h.casePunct_sim.pre hnear
  | atmqt => exact (h.caseAtmqt_sim hc1 hc127).pre hnear
  | lisqt => exact (h.caseLisqt_sim hc1 hc127).pre hnear
  | space => exact h.caseSpace_sim.pre hnear
  | eoln => exact (h.eoln (k - 1)).pre hnear
  | dollar => exact h.caseDollar_sim.pre hnear
  | eofch => exact absurd rfl hne'
  | strqt => exact fail_sim _ _
  | chrqt => exact fail_sim _ _
  | tilde => exact fail_sim _ _
  | realo => exact fail_sim _ _
  | rreal => exact fail_sim _ _
  | rdigit => exact fail_sim _ _

end InStep

end Picat
