import Mathlib.Logic.Function.Basic
import Mathlib.Data.List.Nodup

/-!
# Routines with early exits

A routine over a state of type `σ` that can stop with an error or return before its last line is a computation
in `Except (Exit ε σ)`.

* `Ends r T Q` : `r` does not stop; an early return satisfies `T`, running on to the end satisfies `Q`. Its
  rules are `Ends.bind` and `Ends.run`.
-/

inductive Exit (ε σ : Type*) where
  /-- It stops with an error. -/
  | stop (e : ε)
  /-- It returns, with the state it has reached. -/
  | ret (s : σ)

namespace Exit

universe u

variable {ε σ : Type*} {α β : Type u}

def run : Except (Exit ε σ) σ → Except ε σ
  | .ok s => .ok s
  | .error (.ret s) => .ok s
  | .error (.stop e) => .error e

def call : Except ε α → Except (Exit ε σ) α
  | .ok a => .ok a
  | .error e => .error (.stop e)

/-- `r` does not stop; it returns early in a state of `T`, or runs on with a value of `Q`. -/
def Ends (r : Except (Exit ε σ) α) (T : σ → Prop) (Q : α → Prop) : Prop :=
  match r with
  | .ok a => Q a
  | .error (.ret s) => T s
  | .error (.stop _) => False

namespace Ends

variable {r : Except (Exit ε σ) α} {T T' : σ → Prop} {Q Q' : α → Prop}

theorem ok {a : α} (h : Q a) : Ends (.ok a : Except (Exit ε σ) α) T Q := h

theorem ret {s : σ} (h : T s) : Ends (.error (.ret s) : Except (Exit ε σ) α) T Q := h

theorem bind {f : α → Except (Exit ε σ) β} {R : β → Prop} (h : Ends r T Q) (hf : ∀ a, Q a → Ends (f a) T R) :
    Ends (r >>= f) T R := by
  rcases r with (e | s) | a
  · exact h
  · exact h
  · exact hf a h

theorem call {c : Except ε α} (h : ∃ a, c = .ok a ∧ Q a) : Ends (Exit.call c : Except (Exit ε σ) α) T Q := by
  obtain ⟨a, rfl, ha⟩ := h
  exact ha

theorem run {r : Except (Exit ε σ) σ} (h : Ends r T T) : ∃ s, Exit.run r = .ok s ∧ T s := by
  rcases r with (e | s) | s
  · exact h.elim
  · exact ⟨s, rfl, h⟩
  · exact ⟨s, rfl, h⟩

end Ends

end Exit

/-! # Loops that can stop -/

namespace Loops

open List

universe u

variable {m : Type u → Type*} [Monad m] [LawfulMonad m] {σ : Type u} {ι : Type*}

theorem exists_foldlM (f : σ → ι → m σ) (P : List ι → σ → Prop) (l : List ι) (s : σ) (h0 : P [] s)
    (hstep : ∀ done a rest, l = done ++ a :: rest → ∀ s, P done s → ∃ s', f s a = pure s' ∧ P (done ++ [a]) s') :
    ∃ s', l.foldlM f s = pure s' ∧ P l s' := by
  suffices hrun : ∀ rest done s, l = done ++ rest → P done s → ∃ s', rest.foldlM f s = pure s' ∧ P l s' from
    hrun l [] s rfl h0
  intro rest
  induction rest with
  | nil =>
    intro done s hl hP
    exact ⟨s, rfl, by rwa [hl, append_nil]⟩
  | cons a rest ih =>
    intro done s hl hP
    obtain ⟨s', hs', hP'⟩ := hstep done a rest hl s hP
    obtain ⟨s'', hs'', hP''⟩ := ih (done ++ [a]) s' (by rw [hl, append_assoc]; rfl) hP'
    exact ⟨s'', by rw [foldlM_cons, hs', pure_bind, hs''], hP''⟩

theorem exists_foldlM_range (f : σ → ℕ → m σ) (P : ℕ → σ → Prop) (n : ℕ) (s : σ) (h0 : P 0 s)
    (hstep : ∀ i < n, ∀ s, P i s → ∃ s', f s i = pure s' ∧ P (i + 1) s') :
    ∃ s', (List.range n).foldlM f s = pure s' ∧ P n s' := by
  obtain ⟨s', hs', hP⟩ := exists_foldlM f (fun done => P done.length) (List.range n) s h0
    fun done a rest hl s hP => by
      have hlt : done.length < (List.range n).length := by
        rw [hl, length_append, length_cons]
        omega
      have ha : (List.range n)[done.length] = a := by simp [hl]
      rw [getElem_range] at ha
      rw [length_range] at hlt
      rw [length_append, length_singleton, ← ha]
      exact hstep done.length hlt s hP
  exact ⟨s', hs', by rwa [length_range] at hP⟩

/-- Each index takes its part of the state from `before` to `after` and leaves the parts of the others. -/
theorem exists_foldlM_each (f : σ → ι → m σ) (inv : σ → Prop) (before after : ι → σ → Prop) (l : List ι)
    (hnodup : l.Nodup) (s : σ) (hinv : inv s) (hbefore : ∀ a ∈ l, before a s)
    (hstep : ∀ a ∈ l, ∀ s, inv s → before a s → ∃ s', f s a = pure s' ∧ inv s' ∧ after a s' ∧
      ∀ b ∈ l, b ≠ a → (before b s → before b s') ∧ (after b s → after b s')) :
    ∃ s', l.foldlM f s = pure s' ∧ inv s' ∧ ∀ a ∈ l, after a s' := by
  obtain ⟨s', hs', hinv', hafter, -⟩ := exists_foldlM f
    (fun done s => inv s ∧ (∀ a ∈ done, after a s) ∧ ∀ a ∈ l, a ∉ done → before a s) l s
    ⟨hinv, fun _ ha => by simp at ha, fun a ha _ => hbefore a ha⟩ fun done a rest hl s ⟨hi, ha, hb⟩ => by
      have hmem : a ∈ l := by simp [hl]
      have hnot : a ∉ done := by
        rw [hl, nodup_append] at hnodup
        exact fun hd => hnodup.2.2 a hd a (mem_cons_self ..) rfl
      obtain ⟨s', hs', hi', ha', hrest⟩ := hstep a hmem s hi (hb a hmem hnot)
      refine ⟨s', hs', hi', fun b hb' => ?_, fun b hb' hnb => ?_⟩
      · rcases mem_append.1 hb' with hd | hd
        · have hbl : b ∈ l := by
            rw [hl]
            exact mem_append_left _ hd
          exact (hrest b hbl fun heq => hnot (heq ▸ hd)).2 (ha b hd)
        · rwa [mem_singleton.1 hd]
      · rw [mem_append, not_or, mem_singleton] at hnb
        exact (hrest b hb' hnb.2).1 (hb b hb' hnb.1)
  exact ⟨s', hs', hinv', hafter⟩

end Loops
