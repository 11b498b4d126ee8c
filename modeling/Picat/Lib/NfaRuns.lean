import Mathlib.Computability.NFA

/-!
# Runs of a nondeterministic automaton

* `mem_acceptsFrom_iff_exists` : acceptance from a set of states is acceptance from one of them.
-/

namespace NfaRuns

open Function

variable {α σ : Type*} {M : NFA α σ} {w : ℕ → α}

def word (w : ℕ → α) (n : ℕ) : List α := (List.range' 1 n).map w

theorem word_succ (n : ℕ) : word w (n + 1) = word w n ++ [w (n + 1)] := by
  unfold word
  rw [List.range'_concat, List.map_append, Nat.one_mul, Nat.add_comm 1 n]
  rfl

/-- The letter at place `t` is read at time `t`. -/
structure IsRun (M : NFA α σ) (w : ℕ → α) (n : ℕ) (run : ℕ → σ) : Prop where
  start : run 1 ∈ M.start
  step : ∀ t, 1 ≤ t → t ≤ n → run (t + 1) ∈ M.step (run t) (w t)

theorem IsRun.of_succ {n : ℕ} {run : ℕ → σ} (h : IsRun M w (n + 1) run) : IsRun M w n run :=
  ⟨h.start, fun t h1 hn => h.step t h1 (Nat.le_succ_of_le hn)⟩

theorem mem_eval_iff {n : ℕ} {s : σ} : s ∈ M.eval (word w n) ↔ ∃ run, IsRun M w n run ∧ run (n + 1) = s := by
  induction n generalizing s with
  | zero =>
    constructor
    · intro hs
      exact ⟨fun _ => s, ⟨hs, fun t h1 h0 => by omega⟩, rfl⟩
    · intro hp
      obtain ⟨run, h, rfl⟩ := hp
      exact h.start
  | succ n ih =>
    rw [word_succ, NFA.eval_append_singleton, NFA.mem_stepSet]
    constructor
    · intro hp
      obtain ⟨t, ht, hs⟩ := hp
      obtain ⟨run, h, rfl⟩ := ih.1 ht
      refine ⟨update run (n + 2) s, ⟨?_, ?_⟩, update_self ..⟩
      · rw [update_of_ne (by omega)]
        exact h.start
      · intro t h1 hn
        rw [@update_of_ne _ _ _ t (n + 2) (by omega)]
        by_cases htn : t = n + 1
        · subst htn
          rw [update_self]
          exact hs
        · rw [update_of_ne (by omega)]
          exact h.step t h1 (by omega)
    · intro hp
      obtain ⟨run, h, rfl⟩ := hp
      exact ⟨run (n + 1), ih.2 ⟨run, h.of_succ, rfl⟩, h.step (n + 1) (by omega) (le_refl _)⟩

theorem mem_accepts_iff {n : ℕ} : word w n ∈ M.accepts ↔ ∃ run, IsRun M w n run ∧ run (n + 1) ∈ M.accept := by
  change (∃ s ∈ M.accept, s ∈ M.eval (word w n)) ↔ _
  constructor
  · intro hp
    obtain ⟨s, hs, heval⟩ := hp
    obtain ⟨run, h, rfl⟩ := mem_eval_iff.1 heval
    exact ⟨run, h, hs⟩
  · intro hp
    obtain ⟨run, h, hs⟩ := hp
    exact ⟨run (n + 1), hs, mem_eval_iff.2 ⟨run, h, rfl⟩⟩

theorem mem_acceptsFrom_iff_exists {S : Set σ} {x : List α} : x ∈ M.acceptsFrom S ↔ ∃ s ∈ S, x ∈ M.acceptsFrom {s} := by
  simp only [NFA.mem_acceptsFrom]
  constructor
  · intro hp
    obtain ⟨t, ht, heval⟩ := hp
    obtain ⟨s, hs, h⟩ := NFA.mem_evalFrom_iff_exists.1 heval
    exact ⟨s, hs, t, ht, h⟩
  · intro hp
    obtain ⟨s, hs, t, ht, h⟩ := hp
    exact ⟨t, ht, NFA.mem_evalFrom_iff_exists.2 ⟨s, hs, h⟩⟩

end NfaRuns
