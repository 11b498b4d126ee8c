import Picat.Token.Scan

/-!
# Readers in step

Two readers whose operations agree up to relations between their sources and between their characters.

* the rules for one operation followed by the rest of a program, and `InStep.loop`.
-/

namespace Picat
open Simulation

def Excused (e : Trap) : Prop := e = .outside

theorem excused_outside : Excused .outside := rfl

def Common (e : Trap) : Prop := e = .buffer

abbrev InRun {σ τ α β : Type} (P : ScanState σ → ScanState τ → Prop) (m : Scan σ α) (m' : Scan τ β)
    (Q : α → β → ScanState σ → ScanState τ → Prop) : Prop := Sim Excused Common P m m' Q

/-- A character that has been read counts as one to come, the end of a file does not. -/
def ahead (c : Int) : Nat := if c = -1 then 0 else 1

theorem ahead_le (c : Int) : ahead c ≤ 1 := by
  unfold ahead
  split_ifs <;> omega

theorem ahead_of_ne {c : Int} (h : c ≠ -1) : ahead c = 1 := if_neg h

def Raised {σ τ : Type} (s : ScanState σ) (s' : ScanState τ) : Prop :=
  s.bpException.isSome ∧ s'.bpException.isSome

def Calm {σ τ : Type} (s : ScanState σ) (s' : ScanState τ) : Prop := s.bpException = none ∧ s'.bpException = none

structure Link (σ τ : Type) where
  source : σ → τ → Prop
  char : Int → Int → Prop
  /-- Sources from which the first reader can read on. -/
  aliveLeft : σ → Prop
  /-- Sources from which the second reader can read on. -/
  aliveRight : τ → Prop
  /-- The second character can be given back when the first one is. -/
  back : Int → Int → ScanState σ → ScanState τ → Prop
  /-- What the second reader does at a line end between tokens, when the first one is at `START` again: a condition on
  the character and the state from which the second reader goes on is given. -/
  eoln : (Int → ScanState τ → Prop) → Pass → ScanState τ → Prop
  /-- The second reader's token for the end of the file. -/
  eof : Token → Prop

variable {σ τ : Type} {α β : Type}

namespace Link

variable (L : Link σ τ) (room : σ → Nat)

/-- The states agree, and both have an exception or none, as `e` says. -/
structure Rel (e : Bool) (s : ScanState σ) (s' : ScanState τ) : Prop where
  source : L.source s.source s'.source
  lastc : L.char s.lastc s'.lastc
  left : s.bpException.isSome = e
  right : s'.bpException.isSome = e

/-- At most `k` bytes are to come. -/
def Near (e : Bool) (k : Nat) (s : ScanState σ) (s' : ScanState τ) : Prop := L.Rel e s s' ∧ room s.source ≤ k

/-- The characters `c` and `c'` have been read. -/
def Look (e : Bool) (k : Nat) (c c' : Int) (s : ScanState σ) (s' : ScanState τ) : Prop :=
  L.char c c' ∧ L.Rel e s s' ∧ room s.source + ahead c ≤ k

/-- The variables of two loops, whose characters have been read and whose other variables are equal. -/
def Beside {γ : Type} (e : Bool) (k : Nat) (a a' : γ × Int) (s : ScanState σ) (s' : ScanState τ) : Prop :=
  a'.1 = a.1 ∧ L.Look room e k a.2 a'.2 s s'

/-- Both readers are at `START` without an exception. -/
def Start (k : Nat) (c c' : Int) (s : ScanState σ) (s' : ScanState τ) : Prop :=
  L.char c c' ∧ Calm s s' ∧ (c ≠ -1 → L.Look room false k c c' s s')

def Failed (s : ScanState σ) (s' : ScanState τ) : Prop :=
  Raised s s' ∧ L.aliveLeft s.source ∧ L.aliveRight s'.source

def Quoted (e : Bool) (k : Nat) (d d' : Int) (s : ScanState σ) (s' : ScanState τ) : Prop :=
  L.Failed s s' ∨ (d' = d ∧ L.Rel e s s' ∧ room s.source + 1 ≤ k)

def Done (t t' : Token) (s : ScanState σ) (s' : ScanState τ) : Prop :=
  Raised s s' ∨ (Calm s s' ∧ ((t = .eofch ∧ L.eof t') ∨ (t ≠ .eofch ∧ t' = t ∧ L.Rel false s s')))

def PassRel (k : Nat) (p p' : Pass) (s : ScanState σ) (s' : ScanState τ) : Prop :=
  match p, p' with
  | .start c, .start c' => L.Start room k c c' s s'
  | .eoln c, p' => L.eoln (fun c' s' => L.Start room k c c' s s') p' s'
  | .token t, .token t' => L.Done t t' s s'
  | .error, .error => Raised s s'
  | _, _ => False

variable {L room} {e : Bool} {j k : Nat} {c c' : Int} {s : ScanState σ} {s' : ScanState τ}

theorem Look.mono (h : L.Look room e j c c' s s') (hjk : j ≤ k) : L.Look room e k c c' s s' :=
  ⟨h.1, h.2.1, h.2.2.trans hjk⟩

theorem Start.mono (h : L.Start room j c c' s s') (hjk : j ≤ k) : L.Start room k c c' s s' :=
  ⟨h.1, h.2.1, fun hc => (h.2.2 hc).mono hjk⟩

theorem Look.near (h : L.Look room e k c c' s s') : L.Near room e k s s' := ⟨h.2.1, (Nat.le_add_right _ _).trans h.2.2⟩

theorem Look.enter (h : L.Look room e k c c' s s') :
    L.source s.source s'.source ∧ ∃ j ≤ room s.source + 1, j ≤ k ∧ L.Look room e j c c' s s' :=
  ⟨h.2.1.source, room s.source + ahead c, Nat.add_le_add_left (ahead_le c) _, h.2.2, h.1, h.2.1, le_refl _⟩

theorem Look.beside {γ : Type} (h : L.Look room e k c c' s s') (a : γ) :
    L.source s.source s'.source ∧ ∃ j ≤ room s.source + 1, L.Beside room e j (a, c) (a, c') s s' :=
  ⟨h.enter.1, h.enter.2.imp fun _ hj => ⟨hj.1, rfl, hj.2.2⟩⟩

theorem Look.next (h : L.Look room e k c c' s s') (hc : c ≠ -1) : 0 < k ∧ L.Near room e (k - 1) s s' := by
  obtain ⟨-, hrel, hroom⟩ := h
  rw [ahead_of_ne hc] at hroom
  exact ⟨by omega, hrel, by omega⟩

theorem Rel.raised (h : L.Rel true s s') : Raised s s' := ⟨h.left, h.right⟩

theorem Rel.calm (h : L.Rel false s s') : Calm s s' := by
  have hl := h.left
  have hr := h.right
  rw [Option.isSome_eq_false_iff, Option.isNone_iff_eq_none] at hl hr
  exact ⟨hl, hr⟩

theorem Look.start (h : L.Look room false k c c' s s') : L.Start room k c c' s s' :=
  ⟨h.1, h.2.1.calm, fun _ => h⟩

end Link

/-- After an exception `m` returns, with a result of `Q`. -/
def Survives {σ α : Type} (alive : σ → Prop) (m : Scan σ α) (Q : α → Prop) : Prop :=
  ∀ s, s.bpException.isSome → alive s.source → ∃ a t, m s = .ok (a, t) ∧ Q a ∧ t.bpException.isSome ∧ alive t.source

section
variable {alive : σ → Prop}

theorem Survives.pure {Q : α → Prop} {a : α} (ha : Q a) : Survives alive (Pure.pure a : Scan σ α) Q :=
  fun s hs hal => ⟨a, s, rfl, ha, hs, hal⟩

theorem Survives.bind {m : Scan σ α} {f : α → Scan σ β} {Q : α → Prop} {R : β → Prop}
    (hm : Survives alive m Q) (hf : ∀ a, Q a → Survives alive (f a) R) : Survives alive (m >>= f) R := by
  intro s hs hal
  obtain ⟨a, t, hrun, ha, ht, hal⟩ := hm s hs hal
  have hbind : (m >>= f) s = m s >>= fun x => f x.1 x.2 := rfl
  rw [hbind, hrun]
  exact hf a ha t ht hal

theorem Survives.setLastc (c : Int) : Survives alive (setLastc c) fun _ => True :=
  fun s hs hal => ⟨⟨⟩, { s with lastc := c }, rfl, trivial, hs, hal⟩

end

theorem Survives.inRun {L : Link σ τ} {m : Scan σ α} {m' : Scan τ β} {Q : α → Prop} {Q' : β → Prop}
    (hm : Survives L.aliveLeft m Q) (hm' : Survives L.aliveRight m' Q') :
    InRun L.Failed m m' fun a b s s' => Q a ∧ Q' b ∧ Raised s s' := by
  intro s s' ⟨hr, hl, hl'⟩
  obtain ⟨a, t, hrun, ha, ht, -⟩ := hm s hr.1 hl
  obtain ⟨b, t', hrun', hb, ht', -⟩ := hm' s' hr.2 hl'
  rw [hrun]
  exact ⟨b, t', hrun', ha, hb, ht, ht'⟩

/-- Two characters of which the first has been looked up in a table. -/
def SameChar {γ : Type} (eof : γ → γ → Prop) (c c' : Int) (v v' : γ) : Prop :=
  (c = -1 ∧ eof v v') ∨ (1 ≤ c ∧ c ≤ 127 ∧ c' = c ∧ v' = v)

/-- Characters and their types; at the end of the text a string has a character of layout. -/
def SameType (c c' : Int) (t t' : CharType) : Prop :=
  SameChar (fun t t' => t = .eofch ∧ (t' = .eofch ∨ t' = .space)) c c' t t' ∧ (t = .eofch → c = -1)

abbrev SameVal : Int → Int → Int → Int → Prop := SameChar fun v v' => v = 99 ∧ v' = 99

section
variable {c c' : Int} {t t' : CharType} (ht : SameType c c' t t')
include ht

theorem SameType.of_ne (h : t ≠ .eofch) : 1 ≤ c ∧ c ≤ 127 ∧ c' = c ∧ t' = t :=
  ht.1.resolve_left fun heof => h heof.2.1

theorem SameType.eq_iff {x : CharType} (hx : x ≠ .eofch) (hx' : x ≠ .space) : t = x ↔ t' = x := by
  rcases ht.1 with ⟨-, rfl, ht'⟩ | ⟨-, -, -, rfl⟩
  · rcases ht' with rfl | rfl
    · exact Iff.rfl
    · exact iff_of_false hx.symm hx'.symm
  · exact Iff.rfl

theorem SameType.le_iff {n : Nat} (hn : n < CharType.space.code) : t.code ≤ n ↔ t'.code ≤ n := by
  rcases ht.1 with ⟨-, rfl, ht'⟩ | ⟨-, -, -, rfl⟩
  · have h12 : CharType.space.code = 12 := rfl
    have h15 : CharType.eofch.code = 15 := rfl
    rcases ht' with rfl | rfl <;> omega
  · exact Iff.rfl

theorem SameType.of_le {n : Nat}
    (hn : n < CharType.space.code) (hle : t.code ≤ n) : 1 ≤ c ∧ c ≤ 127 ∧ c' = c ∧ t' = t := by
  apply ht.of_ne
  rintro rfl
  have h12 : CharType.space.code = 12 := rfl
  have h15 : CharType.eofch.code = 15 := rfl
  omega

end

theorem SameVal.eq_of_lt {c c' v v' : Int} (hv : SameVal c c' v v') (hlt : v < 99) :
    1 ≤ c ∧ c ≤ 127 ∧ c' = c ∧ v' = v := by
  rcases hv with ⟨-, hv, -⟩ | hsame
  · omega
  · exact hsame

theorem SameVal.val {c c' v v' : Int} (hv : SameVal c c' v v') : v' = v := by
  rcases hv with ⟨-, hv, hv'⟩ | ⟨-, -, -, hv⟩
  · rw [hv, hv']
  · exact hv

/-- The operations of `src` and `src'` agree. -/
structure SourceStep (L : Link σ τ) (src : Source σ) (src' : Source τ) : Prop where
  char : ∀ {c c'}, L.char c c' → ∀ k, 1 ≤ k → k ≤ 127 → (c = k ↔ c' = k)
  ascii : ∀ {c}, 1 ≤ c → c ≤ 127 → L.char c c
  room : ∀ {r r'}, L.source r r' → src.room r = src'.room r'
  getc : ∀ e k, InRun (L.Near src.room e k) src.getc src'.getc fun c c' s s' =>
    L.Look src.room e k c c' s s' ∧ L.back c c' s s'
  getcLeft : Survives L.aliveLeft src.getc fun _ => True
  getcRight : Survives L.aliveRight src'.getc fun _ => True
  ungetc : ∀ e k c c', InRun (fun s s' => L.Look src.room e k c c' s s' ∧ L.back c c' s s') (src.ungetc c)
    (src'.ungetc c') fun _ _ => L.Near src.room e k
  inType : ∀ P {c c'}, L.char c c' →
    InRun P (src.inType c) (src'.inType c') fun t t' s s' => P s s' ∧ SameType c c' t t'
  digVal : ∀ P {c c'}, L.char c c' → InRun P (src.digVal c) (src'.digVal c') fun v v' s s' => P s s' ∧ SameVal c c' v v'

/-- The operations of `R` and `R'` agree. -/
structure InStep (L : Link σ τ) (R : Reader σ) (R' : Reader τ) (fl : Flags) : Prop
    extends SourceStep L R.toSource R'.toSource where
  readUtf8Character : ∀ e k q, 1 ≤ q → q ≤ 127 →
    InRun (L.Near R.room e k) (R.readUtf8Character q) (R'.readUtf8Character q) (L.Quoted R.room e k)
  com0plain : ∀ k, InRun (L.Near R.room false k) (R.com0plain intab.endeol) (R'.com0plain intab.endeol)
    (L.Start R.room k)
  com2plain : ∀ k, InRun (L.Near R.room false k) (R.com2plain intab.astcom intab.endcom)
    (R'.com2plain intab.astcom intab.endcom) fun b b' s s' =>
      b' = b ∧ if b then L.Near R.room false k s s' else Raised s s'
  eoln : ∀ k, InRun (L.Near R.room false k) R.eoln R'.eoln (L.PassRel R.room k)
  atNul : ∀ {c c'}, L.char c c' → c ≠ -1 → R.atNul c = false ∧ R'.atNul c' = false
  atEnd : ∀ k {c'}, L.char (-1) c' →
    InRun (L.Start R.room k (-1) c') (scanToken R fl (-1)) (scanToken R' fl c') (L.PassRel R.room k)

/-! ## One operation and the rest -/

namespace SourceStep

variable {L : Link σ τ} {src : Source σ} {src' : Source τ} (h : SourceStep L src src')
  {P : ScanState σ → ScanState τ → Prop} {Q : α → β → ScanState σ → ScanState τ → Prop} {e : Bool} {k : Nat}
  {c c' : Int}
include h

theorem getc_bind {f : Int → Scan σ α} {f' : Int → Scan τ β}
    (hf : ∀ c c', L.char c c' → InRun (L.Look src.room e k c c') (f c) (f' c') Q) :
    InRun (L.Near src.room e k) (src.getc >>= f) (src'.getc >>= f') Q :=
  (h.getc e k).bind fun c c' => Sim.of_pre (fun _ _ hP => hP.1.1) fun hc => (hf c c' hc).pre fun _ _ hP => hP.1

theorem inType_bind {f : CharType → Scan σ α} {f' : CharType → Scan τ β} (hc : L.char c c')
    (hf : ∀ t t', SameType c c' t t' → InRun P (f t) (f' t') Q) :
    InRun P (src.inType c >>= f) (src'.inType c' >>= f') Q :=
  (h.inType P hc).bind fun t t' => Sim.of_pre (fun _ _ hP => hP.2) fun ht => (hf t t' ht).pre fun _ _ hP => hP.1

theorem digVal_bind {f : Int → Scan σ α} {f' : Int → Scan τ β} (hc : L.char c c')
    (hf : ∀ v v', SameVal c c' v v' → InRun P (f v) (f' v') Q) :
    InRun P (src.digVal c >>= f) (src'.digVal c' >>= f') Q :=
  (h.digVal P hc).bind fun v v' => Sim.of_pre (fun _ _ hP => hP.2) fun hv => (hf v v' hv).pre fun _ _ hP => hP.1

omit h in
theorem after {m : Scan σ α} {m' : Scan τ β} {Q : Nat → α → β → ScanState σ → ScanState τ → Prop} (hc : c ≠ -1)
    (hm : ∀ k, InRun (L.Near src.room e k) m m' (Q k)) :
    InRun (L.Look src.room e k c c') m m' fun a b s s' => 0 < k ∧ Q (k - 1) a b s s' :=
  Sim.of_pre (fun _ _ hP => (hP.next hc).1) fun hk => (hm (k - 1)).conseq (fun _ _ hP => (hP.next hc).2)
    fun _ _ _ _ hQ => ⟨hk, hQ⟩

theorem next (hc : c ≠ -1) : InRun (L.Look src.room e k c c') src.getc src'.getc fun d d' s s' =>
    0 < k ∧ L.Look src.room e (k - 1) d d' s s' :=
  (after hc (h.getc e)).post fun _ _ _ _ hL => ⟨hL.1, hL.2.1⟩

theorem next_bind {f : Int → Scan σ α} {f' : Int → Scan τ β} (hc : c ≠ -1)
    (hf : 0 < k → ∀ d d', L.char d d' → InRun (L.Look src.room e (k - 1) d d') (f d) (f' d') Q) :
    InRun (L.Look src.room e k c c') (src.getc >>= f) (src'.getc >>= f') Q :=
  (h.next hc).bind fun d d' => Sim.and fun hk => Sim.of_pre (fun _ _ hP => hP.1) fun hd => hf hk d d' hd

omit h in
theorem loop_of_room {γ δ : Type} {body : α → Scan σ (α ⊕ γ)} {body' : β → Scan τ (β ⊕ δ)} {a : α} {b : β}
    {Q : γ → δ → ScanState σ → ScanState τ → Prop} (I : Nat → α → β → ScanState σ → ScanState τ → Prop)
    (hstart : ∀ s s', P s s' → src.room s.source = src'.room s'.source ∧ ∃ j ≤ src.room s.source + 1, I j a b s s')
    (hbody : ∀ k a b, InRun (I k a b) (body a) (body' b) (Goes I Q k)) :
    InRun P (src.loop body a) (src'.loop body' b) Q := by
  intro s s' hP
  obtain ⟨hroom, j, hj, hI⟩ := hstart s s' hP
  have hrun := Sim.rounds Trap.rounds I hbody (Nat.lt_succ_of_le hj) s s' hI
  have hleft : src.loop body a s = rounds .rounds body (src.room s.source + 2) a s := rfl
  have hright : src'.loop body' b s' = rounds .rounds body' (src'.room s'.source + 2) b s' := rfl
  rwa [hleft, hright, ← hroom]

theorem loop {γ δ : Type} {body : α → Scan σ (α ⊕ γ)} {body' : β → Scan τ (β ⊕ δ)} {a : α} {b : β}
    {Q : γ → δ → ScanState σ → ScanState τ → Prop} (I : Nat → α → β → ScanState σ → ScanState τ → Prop)
    (hstart : ∀ s s', P s s' → L.source s.source s'.source ∧ ∃ j ≤ src.room s.source + 1, I j a b s s')
    (hbody : ∀ k a b, InRun (I k a b) (body a) (body' b) (Goes I Q k)) :
    InRun P (src.loop body a) (src'.loop body' b) Q :=
  loop_of_room I (fun s s' hP => ⟨h.room (hstart s s' hP).1, (hstart s s' hP).2⟩) hbody

end SourceStep

/-! ## Operations on the token -/

section
variable {L : Link σ τ} {room : σ → Nat} {P : ScanState σ → ScanState τ → Prop}
  {Q : α → β → ScanState σ → ScanState τ → Prop} {e : Bool} {k m : Nat} {c c' : Int}

theorem putChar_sim (s : List UInt8) (c : Int) :
    InRun P (putChar s c) (putChar s c) fun s1 s1' t t' => s1' = s1 ∧ P t t' := by
  unfold putChar
  exact Sim.ite (fun _ _ _ => Iff.rfl) (fun _ _ => Sim.pure fun _ _ hP => ⟨rfl, hP⟩) fun _ _ => Sim.throw_common rfl

theorem putEnd_sim (s : List UInt8) : InRun P (putEnd s) (putEnd s) fun _ _ => P := by
  unfold putEnd
  exact Sim.ite (fun _ _ _ => Iff.rfl) (fun _ _ => Sim.pure fun _ _ hP => hP) fun _ _ => Sim.throw_common rfl

theorem putText_sim (cs : List Int) : ∀ s : List UInt8,
    InRun P (putText s cs) (putText s cs) fun s1 s1' t t' => s1' = s1 ∧ P t t' := by
  induction cs with
  | nil => exact fun s => Sim.pure fun _ _ hP => ⟨rfl, hP⟩
  | cons c cs ih =>
    intro s
    exact Sim.bind_eq (T := fun _ => P) (putChar_sim s c) ih

theorem putChar_bind {s : List UInt8} {f : List UInt8 → Scan σ α} {f' : List UInt8 → Scan τ β}
    (hf : ∀ s, InRun P (f s) (f' s) Q) : InRun P (putChar s c >>= f) (putChar s c >>= f') Q :=
  Sim.bind_eq (T := fun _ => P) (putChar_sim s c) hf

theorem putText_bind {s : List UInt8} {cs : List Int} {f : List UInt8 → Scan σ α} {f' : List UInt8 → Scan τ β}
    (hf : ∀ s, InRun P (f s) (f' s) Q) : InRun P (putText s cs >>= f) (putText s cs >>= f') Q :=
  Sim.bind_eq (T := fun _ => P) (putText_sim cs s) hf

theorem putEnd_bind {s : List UInt8} {f : PUnit → Scan σ α} {f' : PUnit → Scan τ β}
    (hf : InRun P (f ⟨⟩) (f' ⟨⟩) Q) : InRun P (putEnd s >>= f) (putEnd s >>= f') Q :=
  (putEnd_sim s).bind fun _ _ => hf

theorem fail_sim (e1 e2 : TokenError) : InRun P (fail e1) (fail e2) (L.PassRel room k) := by
  have hraise : InRun P (setException e1) (setException e2) fun _ _ => Raised := Sim.modify fun _ _ _ => ⟨rfl, rfl⟩
  exact hraise.bind fun _ _ => Sim.pure fun _ _ h => h

theorem token_sim {t : Token} (ht : t ≠ .eofch) (hP : ∀ s s', P s s' → L.char c c' ∧ ∃ e, L.Rel e s s') :
    InRun P (endToken c t) (endToken c' t) (L.PassRel room k) := by
  have hset : InRun P (setLastc c) (setLastc c') fun _ _ s s' => ∃ e, L.Rel e s s' :=
    Sim.modify fun s s' h => by
      obtain ⟨hc, e, hrel⟩ := hP s s' h
      exact ⟨e, hrel.source, hc, hrel.left, hrel.right⟩
  refine hset.bind fun _ _ => Sim.exists fun e => Sim.pure fun s s' h => ?_
  cases e
  · exact .inr ⟨h.calm, .inr ⟨ht, rfl, h⟩⟩
  · exact .inl h.raised

theorem endToken_sim {t : Token} (ht : t ≠ .eofch) :
    InRun (L.Look room e k c c') (endToken c t) (endToken c' t) (L.PassRel room m) :=
  token_sim ht fun _ _ hP => ⟨hP.1, e, hP.2.1⟩

end

end Picat
