import Mathlib.Tactic.SplitIfs

/-!
# Two programs in step

Programs over two states that can fail with the same kind of failure, compared run by run.

* `bind_of_ok`, `rounds_of_inl` and the like : single runs, step by step.
-/

namespace Simulation

variable {σ τ ε α β γ δ : Type}

/-- `body` until it gives a result, at most `fuel` times. -/
def rounds (out : ε) (body : α → StateT σ (Except ε) (α ⊕ γ)) : Nat → α → StateT σ (Except ε) γ
  | 0, _ => throw out
  | fuel + 1, a => do
    match ← body a with
    | .inl a => rounds out body fuel a
    | .inr c => pure c

/-! ## Single runs -/

section SingleRuns
variable {m : StateT σ (Except ε) α} {f : α → StateT σ (Except ε) β} {g : α → β} {s t : σ} {a : α} {e out : ε}

theorem bind_of_ok (h : m s = .ok (a, t)) : (m >>= f) s = f a t := by
  show (m s >>= fun x => f x.1 x.2) = f a t
  rw [h]
  rfl

theorem bind_of_error (h : m s = .error e) : (m >>= f) s = .error e := by
  show (m s >>= fun x => f x.1 x.2) = .error e
  rw [h]
  rfl

theorem map_of_ok (h : m s = .ok (a, t)) : (g <$> m) s = .ok (g a, t) := by
  show (m s >>= fun x => Pure.pure (g x.1, x.2)) = .ok (g a, t)
  rw [h]
  rfl

theorem map_of_error (h : m s = .error e) : (g <$> m) s = .error e := by
  show (m s >>= fun x => Pure.pure (g x.1, x.2)) = .error e
  rw [h]
  rfl

variable {body : α → StateT σ (Except ε) (α ⊕ γ)} {fuel : Nat} {a' : α} {c : γ}

theorem rounds_of_inl (h : body a s = .ok (.inl a', t)) :
    rounds out body (fuel + 1) a s = rounds out body fuel a' t := bind_of_ok h

theorem rounds_of_inr (h : body a s = .ok (.inr c, t)) : rounds out body (fuel + 1) a s = .ok (c, t) := bind_of_ok h

theorem rounds_of_error (h : body a s = .error e) : rounds out body (fuel + 1) a s = .error e := bind_of_error h

end SingleRuns

/-! ## Two runs -/

/-- From states of `P`: when `m` returns, so does `m'`, and `Q` holds of the results and the states; when `m` fails, the
failure is excused or both fail alike. -/
def Sim (excused common : ε → Prop) (P : σ → τ → Prop) (m : StateT σ (Except ε) α) (m' : StateT τ (Except ε) β)
    (Q : α → β → σ → τ → Prop) : Prop :=
  ∀ s s', P s s' → match m s with
    | .ok (a, t) => ∃ b t', m' s' = .ok (b, t') ∧ Q a b t t'
    | .error e => excused e ∨ (common e ∧ m' s' = .error e)

/-- Every run of `m` is a run of `m'`, or ends with `out`. -/
def CutOff (out : ε) (m m' : StateT σ (Except ε) α) : Prop := ∀ s, m s = .error out ∨ m s = m' s

namespace CutOff

variable {out : ε} {m m' : StateT σ (Except ε) α}

theorem refl (m : StateT σ (Except ε) α) : CutOff out m m := fun _ => .inr rfl

theorem trans {m'' : StateT σ (Except ε) α} (h : CutOff out m m') (h' : CutOff out m' m'') : CutOff out m m'' := by
  intro s
  rcases h s with hs | hs
  · exact .inl hs
  · rw [hs]
    exact h' s

theorem cut (p : Prop) [Decidable p] (m : StateT σ (Except ε) α) :
    CutOff out (if p then MonadExcept.throw out else m) m := by
  split_ifs
  · exact fun _ => .inl rfl
  · exact fun _ => .inr rfl

theorem bind {f f' : α → StateT σ (Except ε) β} (hm : CutOff out m m') (hf : ∀ a, CutOff out (f a) (f' a)) :
    CutOff out (m >>= f) (m' >>= f') := by
  intro s
  have hleft : (m >>= f) s = m s >>= fun x => f x.1 x.2 := rfl
  have hright : (m' >>= f') s = m' s >>= fun x => f' x.1 x.2 := rfl
  rw [hleft, hright]
  rcases hm s with hs | hs
  · exact .inl (by rw [hs]; rfl)
  · rw [hs]
    cases m' s with
    | error e => exact .inr rfl
    | ok x => exact hf x.1 x.2

theorem map (f : α → β) (hm : CutOff out m m') : CutOff out (f <$> m) (f <$> m') := by
  intro s
  have hleft : ∀ n : StateT σ (Except ε) α, (f <$> n) s = n s >>= fun x => Pure.pure (f x.1, x.2) := fun _ => rfl
  rw [hleft, hleft]
  rcases hm s with hs | hs
  · exact .inl (by rw [hs]; rfl)
  · exact .inr (by rw [hs])

theorem ite {p : Prop} [Decidable p] {n n' : StateT σ (Except ε) α} (hm : CutOff out m m') (hn : CutOff out n n') :
    CutOff out (if p then m else n) (if p then m' else n') := by
  split_ifs
  · exact hm
  · exact hn

theorem rounds {x : ε} {body body' : α → StateT σ (Except ε) (α ⊕ γ)} (h : ∀ a, CutOff out (body a) (body' a)) :
    ∀ (fuel : Nat) (a : α), CutOff out (Simulation.rounds x body fuel a) (Simulation.rounds x body' fuel a) := by
  intro fuel
  induction fuel with
  | zero => exact fun a => refl _
  | succ fuel ih =>
    intro a
    apply (h a).bind
    intro r
    cases r with
    | inl a => exact ih a
    | inr c => exact refl _

end CutOff

section Rules
variable {excused common : ε → Prop} {P P' : σ → τ → Prop} {m : StateT σ (Except ε) α} {m' : StateT τ (Except ε) β}
  {Q Q' : α → β → σ → τ → Prop} {R : γ → δ → σ → τ → Prop}

theorem Sim.pure {a : α} {b : β} (h : ∀ s s', P s s' → Q a b s s') :
    Sim excused common P (Pure.pure a) (Pure.pure b) Q := by
  intro s s' hP
  exact ⟨b, s', rfl, h s s' hP⟩

theorem Sim.bind {f : α → StateT σ (Except ε) γ} {g : β → StateT τ (Except ε) δ} (hm : Sim excused common P m m' Q)
    (hf : ∀ a b, Sim excused common (Q a b) (f a) (g b) R) : Sim excused common P (m >>= f) (m' >>= g) R := by
  intro s s' hP
  have hrun := hm s s' hP
  have hleft : (m >>= f) s = m s >>= fun x => f x.1 x.2 := rfl
  have hright : (m' >>= g) s' = m' s' >>= fun x => g x.1 x.2 := rfl
  rw [hleft, hright]
  rcases hms : m s with e | ⟨a, t⟩
  · rw [hms] at hrun
    exact hrun.imp_right fun ⟨he, hrun⟩ => ⟨he, by rw [hrun]; rfl⟩
  · rw [hms] at hrun
    obtain ⟨b, t', hrun, hQ⟩ := hrun
    rw [hrun]
    exact hf a b t t' hQ

section
variable (hm : Sim excused common P m m' Q)
include hm

theorem Sim.conseq (hP : ∀ s s', P' s s' → P s s')
    (hQ : ∀ a b s s', Q a b s s' → Q' a b s s') : Sim excused common P' m m' Q' := by
  intro s s' h
  have hrun := hm s s' (hP s s' h)
  rcases hms : m s with e | ⟨a, t⟩
  · rwa [hms] at hrun
  · rw [hms] at hrun
    obtain ⟨b, t', hrun, h⟩ := hrun
    exact ⟨b, t', hrun, hQ _ _ _ _ h⟩

theorem Sim.pre (hP : ∀ s s', P' s s' → P s s') : Sim excused common P' m m' Q :=
  hm.conseq hP fun _ _ _ _ h => h

theorem Sim.post (hQ : ∀ a b s s', Q a b s s' → Q' a b s s') : Sim excused common P m m' Q' :=
  hm.conseq (fun _ _ h => h) hQ

end

theorem Sim.bind_eq {m' : StateT τ (Except ε) α} {T : α → σ → τ → Prop} {f : α → StateT σ (Except ε) γ}
    {g : α → StateT τ (Except ε) δ} (hm : Sim excused common P m m' fun a b s s' => b = a ∧ T a s s')
    (hf : ∀ a, Sim excused common (T a) (f a) (g a) R) : Sim excused common P (m >>= f) (m' >>= g) R := by
  refine hm.bind fun a b s s' ⟨hab, hT⟩ => ?_
  subst hab
  exact hf b s s' hT

theorem Sim.bind_right {m : StateT σ (Except ε) γ} {T : β → σ → τ → Prop} {g : β → StateT τ (Except ε) δ}
    (hm : ∀ s s', P s s' → ∃ b t', m' s' = .ok (b, t') ∧ T b s t')
    (hg : ∀ b, Sim excused common (T b) m (g b) R) : Sim excused common P m (m' >>= g) R := by
  intro s s' hP
  obtain ⟨b, t', hrun, hT⟩ := hm s s' hP
  have hright : (m' >>= g) s' = m' s' >>= fun x => g x.1 x.2 := rfl
  rw [hright, hrun]
  exact hg b s t' hT

theorem Sim.bind_left {f : α → StateT σ (Except ε) γ} {R : γ → β → σ → τ → Prop} (hm : Sim excused common P m m' Q)
    (hf : ∀ a b, Sim excused common (Q a b) (f a) (Pure.pure b) R) : Sim excused common P (m >>= f) m' R := by
  rw [← bind_pure m']
  exact hm.bind hf

theorem Sim.map {f : α → γ} {g : β → δ} (hm : Sim excused common P m m' Q)
    (hR : ∀ a b s s', Q a b s s' → R (f a) (g b) s s') : Sim excused common P (f <$> m) (g <$> m') R := by
  intro s s' hP
  have hrun := hm s s' hP
  have hleft : (f <$> m) s = m s >>= fun x => Pure.pure (f x.1, x.2) := rfl
  have hright : (g <$> m') s' = m' s' >>= fun x => Pure.pure (g x.1, x.2) := rfl
  rw [hleft, hright]
  rcases hms : m s with e | ⟨a, t⟩
  · rw [hms] at hrun
    exact hrun.imp_right fun ⟨he, hrun⟩ => ⟨he, by rw [hrun]; rfl⟩
  · rw [hms] at hrun
    obtain ⟨b, t', hrun, hQ⟩ := hrun
    exact ⟨g b, t', by rw [hrun]; rfl, hR _ _ _ _ hQ⟩

theorem Sim.map_left {f : α → γ} {R : γ → β → σ → τ → Prop} (hm : Sim excused common P m m' Q)
    (hR : ∀ a b s s', Q a b s s' → R (f a) b s s') : Sim excused common P (f <$> m) m' R := by
  rw [← id_map m']
  exact hm.map hR

theorem Sim.of_pre {φ : Prop} (h : ∀ s s', P s s' → φ) (hm : φ → Sim excused common P m m' Q) :
    Sim excused common P m m' Q :=
  fun s s' hP => hm (h s s' hP) s s' hP

theorem Sim.or {P' : σ → τ → Prop} (hm : Sim excused common P m m' Q) (hm' : Sim excused common P' m m' Q) :
    Sim excused common (fun s s' => P s s' ∨ P' s s') m m' Q :=
  fun s s' hP => hP.elim (hm s s') (hm' s s')

theorem Sim.exists {ι : Type} {P : ι → σ → τ → Prop} (hm : ∀ i, Sim excused common (P i) m m' Q) :
    Sim excused common (fun s s' => ∃ i, P i s s') m m' Q :=
  fun s s' ⟨i, hP⟩ => hm i s s' hP

theorem Sim.and {φ : Prop} (hm : φ → Sim excused common P m m' Q) :
    Sim excused common (fun s s' => φ ∧ P s s') m m' Q :=
  fun s s' hP => hm hP.1 s s' hP.2

theorem Sim.throw_common {e : ε} (he : common e) :
    Sim excused common P (throw e : StateT σ (Except ε) α) (throw e : StateT τ (Except ε) β) Q :=
  fun _ _ _ => .inr ⟨he, rfl⟩

theorem Sim.throw_excused {e : ε} (he : excused e) : Sim excused common P (throw e : StateT σ (Except ε) α) m' Q :=
  fun _ _ _ => .inl he

theorem Sim.ite {p q : Prop} [Decidable p] [Decidable q] {n : StateT σ (Except ε) α} {n' : StateT τ (Except ε) β}
    (hpq : ∀ s s', P s s' → (p ↔ q)) (hthen : p → q → Sim excused common P m m' Q)
    (helse : ¬p → ¬q → Sim excused common P n n' Q) :
    Sim excused common P (if p then m else n) (if q then m' else n') Q := by
  apply Sim.of_pre hpq
  intro hpq
  by_cases hp : p
  · rw [if_pos hp, if_pos (hpq.1 hp)]
    exact hthen hp (hpq.1 hp)
  · rw [if_neg hp, if_neg fun hq => hp (hpq.2 hq)]
    exact helse hp fun hq => hp (hpq.2 hq)

theorem Sim.cut {e : ε} (he : excused e) {p : Prop} [Decidable p] (hm : ¬p → Sim excused common P m m' Q) :
    Sim excused common P (if p then throw e else m) m' Q := by
  split_ifs with hp
  · exact Sim.throw_excused he
  · exact hm hp

theorem Sim.modify {f : σ → σ} {g : τ → τ} {Q : PUnit → PUnit → σ → τ → Prop}
    (h : ∀ s s', P s s' → Q ⟨⟩ ⟨⟩ (f s) (g s')) :
    Sim excused common P (modify f : StateT σ (Except ε) PUnit) (modify g) Q :=
  fun s s' hP => ⟨⟨⟩, g s', rfl, h s s' hP⟩

/-- How one round of two loops ends, where `I k` holds of the rounds with at most `k` to go: both go on, with fewer to
go, or both end. -/
def Goes (I : Nat → α → β → σ → τ → Prop) (R : γ → δ → σ → τ → Prop) (k : Nat) : α ⊕ γ → β ⊕ δ → σ → τ → Prop
  | .inl a, .inl b => fun t t' => ∃ j < k, I j a b t t'
  | .inr c, .inr d => R c d
  | .inl _, .inr _ => fun _ _ => False
  | .inr _, .inl _ => fun _ _ => False

theorem Sim.ends {m : StateT σ (Except ε) γ} {m' : StateT τ (Except ε) δ} {I : Nat → α → β → σ → τ → Prop} {k : Nat}
    (hm : Sim excused common P m m' R) : Sim excused common P (.inr <$> m) (.inr <$> m') (Goes I R k) :=
  hm.map fun _ _ _ _ hR => hR

section
variable (out : ε) {body : α → StateT σ (Except ε) (α ⊕ γ)}
include out

theorem Sim.rounds {body' : β → StateT τ (Except ε) (β ⊕ δ)} (I : Nat → α → β → σ → τ → Prop)
    (hbody : ∀ k a b, Sim excused common (I k a b) (body a) (body' b) (Goes I R k)) :
    ∀ {fuel k : Nat}, k < fuel → ∀ {a : α} {b : β},
      Sim excused common (I k a b) (Simulation.rounds out body fuel a) (Simulation.rounds out body' fuel b) R := by
  intro fuel
  induction fuel with
  | zero => exact fun h => absurd h (Nat.not_lt_zero _)
  | succ fuel ih =>
    intro k hk a b
    apply Sim.bind (hbody k a b)
    intro r r'
    rcases r with a | c <;> rcases r' with b | d
    · intro s s' ⟨j, hj, hI⟩
      exact ih (Nat.lt_of_lt_of_le hj (Nat.lt_succ_iff.1 hk)) s s' hI
    · exact fun s s' h => h.elim
    · exact fun s s' h => h.elim
    · exact fun s s' h => ⟨d, s', rfl, h⟩

theorem Sim.rounds_once {R : γ → β → σ → τ → Prop} {a : α}
    (hm : Sim excused common P (body a) m' fun r b s s' => ∃ c, r = .inr c ∧ R c b s s') (fuel : Nat) :
    Sim excused common P (Simulation.rounds out body (fuel + 1) a) m' R := by
  refine Sim.bind_left hm fun r b => Sim.exists fun c => Sim.and fun hr => ?_
  subst hr
  exact Sim.pure fun _ _ h => h

end

end Rules

end Simulation

/-! # Triples -/

namespace Simulation

variable {σ ε α β γ : Type}

/-- Every run of `m` from a state of `P` ends in `Q` or fails in a way of `E`. -/
def Triple (E : ε → Prop) (P : σ → Prop) (m : StateT σ (Except ε) α) (Q : α → σ → Prop) : Prop :=
  ∀ s, P s → match m s with
    | .ok (a, t) => Q a t
    | .error e => E e

namespace Triple

variable {E : ε → Prop} {P P' : σ → Prop} {m : StateT σ (Except ε) α} {Q Q' : α → σ → Prop}

theorem pure {a : α} (h : ∀ s, P s → Q a s) : Triple E P (Pure.pure a) Q := h

theorem throw {e : ε} (h : E e) : Triple E P (throw e : StateT σ (Except ε) α) Q := fun _ _ => h

theorem modify {f : σ → σ} {Q : PUnit → σ → Prop} (h : ∀ s, P s → Q ⟨⟩ (f s)) :
    Triple E P (modify f : StateT σ (Except ε) PUnit) Q := h

theorem conseq (hm : Triple E P m Q) (hP : ∀ s, P' s → P s) (hQ : ∀ a s, Q a s → Q' a s) : Triple E P' m Q' := by
  intro s hs
  have h := hm s (hP s hs)
  cases hrun : m s with
  | error e => rwa [hrun] at h
  | ok r =>
    rw [hrun] at h
    exact hQ _ _ h

theorem bind {f : α → StateT σ (Except ε) β} {R : β → σ → Prop} (hm : Triple E P m Q)
    (hf : ∀ a, Triple E (Q a) (f a) R) : Triple E P (m >>= f) R := by
  intro s hs
  have h := hm s hs
  cases hrun : m s with
  | error e =>
    rw [bind_of_error hrun]
    rwa [hrun] at h
  | ok r =>
    rw [bind_of_ok hrun]
    rw [hrun] at h
    exact hf _ _ h

theorem map {f : α → β} {R : β → σ → Prop} (hm : Triple E P m fun a s => R (f a) s) : Triple E P (f <$> m) R := by
  intro s hs
  have h := hm s hs
  cases hrun : m s with
  | error e =>
    rw [map_of_error hrun]
    rwa [hrun] at h
  | ok r =>
    rw [map_of_ok hrun]
    rwa [hrun] at h

theorem ite {p : Prop} [Decidable p] {n : StateT σ (Except ε) α} (hm : p → Triple E P m Q) (hn : ¬ p → Triple E P n Q) :
    Triple E P (if p then m else n) Q := by
  split_ifs with h
  · exact hm h
  · exact hn h

theorem of_pre {φ : Prop} (h : ∀ s, P s → φ) (hm : φ → Triple E P m Q) : Triple E P m Q := fun s hs => hm (h s hs) s hs

theorem rounds {out : ε} (hout : E out) {body : α → StateT σ (Except ε) (α ⊕ γ)} {I : α → σ → Prop} {Q : γ → σ → Prop}
    (h : ∀ a, Triple E (I a) (body a) fun r s => r.elim (fun a => I a s) fun c => Q c s) :
    ∀ (fuel : Nat) (a : α), Triple E (I a) (Simulation.rounds out body fuel a) Q := by
  intro fuel
  induction fuel with
  | zero => exact fun _ => throw hout
  | succ fuel ih =>
    intro a
    apply (h a).bind
    intro r
    cases r with
    | inl a => exact ih a
    | inr c => exact pure fun _ h => h

theorem rounds_variant {out : ε} {body : α → StateT σ (Except ε) (α ⊕ γ)} {I : α → σ → Prop} {Q : γ → σ → Prop}
    (v : α → Nat)
    (h : ∀ a, Triple E (I a) (body a) fun r s => r.elim (fun a' => I a' s ∧ v a' < v a) fun c => Q c s) :
    ∀ (fuel : Nat) (a : α), v a < fuel → Triple E (I a) (Simulation.rounds out body fuel a) Q := by
  intro fuel
  induction fuel with
  | zero => exact fun _ hv => absurd hv (Nat.not_lt_zero _)
  | succ fuel ih =>
    intro a hv
    apply (h a).bind
    intro r
    cases r with
    | inl a' => exact of_pre (fun _ h => h.2) fun hlt => (ih a' (by omega)).conseq (fun _ h => h.1) fun _ _ h => h
    | inr c => exact pure fun _ h => h

theorem of_run (h : ∀ s, P s → ∃ a t, m s = .ok (a, t) ∧ Q a t) : Triple E P m Q := by
  intro s hs
  obtain ⟨a, t, hrun, hQ⟩ := h s hs
  rw [hrun]
  exact hQ

theorem run (h : Triple (fun _ => False) P m Q) {s : σ} (hs : P s) : ∃ a t, m s = .ok (a, t) ∧ Q a t := by
  have h := h s hs
  cases hrun : m s with
  | error e =>
    rw [hrun] at h
    exact h.elim
  | ok r =>
    rw [hrun] at h
    exact ⟨r.1, r.2, rfl, h⟩

end Triple

end Simulation
