import Mathlib.Logic.Function.Basic
import Mathlib.Data.Nat.Notation

/-!
# Conditions with fresh variables

Conditions on assignments to numbered variables, where the numbers from `n` on are fresh.

* `Extends.fresh`, `Extends.assert`, `Extends.trans` : a new variable, a new condition, one step after another.
-/

namespace FreshVariables

variable {α : Type*} {n n' m : ℕ} {τ τ' τ'' : ℕ → α} {G G' H p q r p' q' r' f : (ℕ → α) → Prop}

def Agree (n : ℕ) (τ τ' : ℕ → α) : Prop := ∀ i < n, τ' i = τ i

/-- The condition reads only variables below `n`. -/
def Local (n : ℕ) (p : (ℕ → α) → Prop) : Prop := ∀ τ τ', Agree n τ τ' → (p τ' ↔ p τ)

structure Extends (n n' : ℕ) (G G' p q r : (ℕ → α) → Prop) : Prop where
  le : n ≤ n'
  loc : Local n G → Local n' G'
  sound : ∀ τ, G' τ → G τ ∧ q τ
  complete : Local n G → ∀ τ, G τ → p τ → ∃ τ', Agree n τ τ' ∧ G' τ' ∧ r τ'

theorem Agree.refl (n : ℕ) (τ : ℕ → α) : Agree n τ τ := fun _ _ => rfl

theorem Agree.mono (h : Agree n' τ τ') (hle : n ≤ n') : Agree n τ τ' := fun i hi => h i (by omega)

theorem Agree.trans (h : Agree n τ τ') (h' : Agree n τ' τ'') : Agree n τ τ'' :=
  fun i hi => (h' i hi).trans (h i hi)

theorem agree_update (τ : ℕ → α) (n : ℕ) (v : α) : Agree n τ (Function.update τ n v) :=
  fun _ hi => Function.update_of_ne (Nat.ne_of_lt hi) v τ

theorem Local.mono (h : Local n p) (hle : n ≤ n') : Local n' p := fun τ τ' hag => h τ τ' (hag.mono hle)

theorem Local.and (hp : Local n p) (hq : Local n q) : Local n fun τ => p τ ∧ q τ :=
  fun τ τ' hag => and_congr (hp τ τ' hag) (hq τ τ' hag)

theorem local_true (n : ℕ) : Local n fun _ : ℕ → α => True := fun _ _ _ => Iff.rfl

namespace Extends

theorem refl (n : ℕ) (G : (ℕ → α) → Prop) : Extends n n G G (fun _ => True) (fun _ => True) fun _ => True :=
  ⟨Nat.le_refl n, id, fun _ h => ⟨h, trivial⟩, fun _ τ h _ => ⟨τ, Agree.refl n τ, h, trivial⟩⟩

section
variable (h : Extends n n' G G' p q r)
include h

theorem trans (h' : Extends n' m G' H p' q' r') (hmid : ∀ τ, G' τ → r τ → p' τ)
    (hr : Local n' r) : Extends n m G H p (fun τ => q τ ∧ q' τ) fun τ => r τ ∧ r' τ where
  le := Nat.le_trans h.le h'.le
  loc := fun hG => h'.loc (h.loc hG)
  sound := fun τ hH => by
    obtain ⟨hG', hq'⟩ := h'.sound τ hH
    obtain ⟨hG, hq⟩ := h.sound τ hG'
    exact ⟨hG, hq, hq'⟩
  complete := fun hloc τ hG hp => by
    obtain ⟨τ', hag, hG', hr'⟩ := h.complete hloc τ hG hp
    obtain ⟨τ'', hag', hH, hr''⟩ := h'.complete (h.loc hloc) τ' hG' (hmid τ' hG' hr')
    exact ⟨τ'', hag.trans (hag'.mono h.le), hH, (hr τ' τ'' hag').2 hr', hr''⟩

theorem imp (hp : ∀ τ, G τ → p' τ → p τ) (hq : ∀ τ, G' τ → q τ → q' τ)
    (hr : ∀ τ, G' τ → r τ → r' τ) : Extends n n' G G' p' q' r' where
  le := h.le
  loc := h.loc
  sound := fun τ hG' => ⟨(h.sound τ hG').1, hq τ hG' (h.sound τ hG').2⟩
  complete := fun hloc τ hG hp' => by
    obtain ⟨τ', hag, hG', hr'⟩ := h.complete hloc τ hG (hp τ hG hp')
    exact ⟨τ', hag, hG', hr τ' hG' hr'⟩

theorem keep (hf : Local n f) : Extends n n' G G' (fun τ => p τ ∧ f τ) q fun τ => r τ ∧ f τ where
  le := h.le
  loc := h.loc
  sound := h.sound
  complete := fun hloc τ hG hpf => by
    obtain ⟨τ', hag, hG', hr'⟩ := h.complete hloc τ hG hpf.1
    exact ⟨τ', hag, hG', hr', (hf τ τ' hag).2 hpf.2⟩

end

theorem assert (hf : Local n f) : Extends n n G (fun τ => G τ ∧ f τ) f f fun _ => True where
  le := Nat.le_refl n
  loc := fun hG => hG.and hf
  sound := fun _ h => h
  complete := fun _ τ hG hfτ => ⟨τ, Agree.refl n τ, ⟨hG, hfτ⟩, trivial⟩

theorem fresh {v : (ℕ → α) → α} (hv : ∀ τ τ', Agree n τ τ' → v τ' = v τ) :
    Extends n (n + 1) G G (fun _ => True) (fun _ => True) fun τ => τ n = v τ where
  le := Nat.le_succ n
  loc := fun hG => hG.mono (Nat.le_succ n)
  sound := fun _ h => ⟨h, trivial⟩
  complete := fun hloc τ hG _ => by
    have hag := agree_update τ n (v τ)
    refine ⟨Function.update τ n (v τ), hag, (hloc _ _ hag).2 hG, ?_⟩
    rw [Function.update_self, hv _ _ hag]

theorem exists_iff (h : Extends n n' G G' p q r) (hloc : Local n G) (hp : Local n p) (hq : ∀ τ, G' τ → q τ → p τ)
    (hG : G τ) : (∃ τ', Agree n τ τ' ∧ G' τ') ↔ p τ := by
  constructor
  · intro hboth
    obtain ⟨τ', hag, hG'⟩ := hboth
    exact (hp τ τ' hag).1 (hq τ' hG' (h.sound τ' hG').2)
  · intro hpτ
    obtain ⟨τ', hag, hG', _⟩ := h.complete hloc τ hG hpτ
    exact ⟨τ', hag, hG'⟩

end Extends

end FreshVariables
