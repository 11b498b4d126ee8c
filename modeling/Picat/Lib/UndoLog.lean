import Mathlib.Data.List.Basic

/-!
# Undo logs

A log of saved values, its oldest entry first. An entry `e` is about the address `key e` and saved `val e`. Undoing goes
from the newest entry to the oldest, so that at each address the oldest entry has the last word.

* `Compacts` : a part of a log that has the oldest entry of every address, and others only where they are exempt.
-/

namespace UndoLog

open List

variable {ε α β : Type*} [DecidableEq α] (key : ε → α) (val : ε → β)

/-- The memory after all entries have been undone, the newest one first. -/
def undo (log : List ε) (mem : α → β) : α → β := log.foldr (fun e m => Function.update m (key e) (val e)) mem

/-- The oldest entry for the address `a`. -/
def oldest (log : List ε) (a : α) : Option ε := log.find? fun e => key e = a

theorem undo_append (old new : List ε) (mem : α → β) :
    undo key val (old ++ new) mem = undo key val old (undo key val new mem) := foldr_append

theorem undo_apply (log : List ε) (mem : α → β) (a : α) :
    undo key val log mem a = (oldest key log a).elim (mem a) val := by
  induction log with
  | nil => rfl
  | cons e log ih =>
    rw [undo, foldr_cons, oldest, List.find?_cons]
    by_cases he : key e = a
    · subst he
      simp
    · rw [Function.update_of_ne (Ne.symm he), decide_eq_false he]
      exact ih

theorem undo_congr {log log' : List ε} {a : α} (h : oldest key log a = oldest key log' a) (mem : α → β) :
    undo key val log mem a = undo key val log' mem a := by rw [undo_apply, undo_apply, h]

variable {key}

theorem oldest_append (old new : List ε) (a : α) :
    oldest key (old ++ new) a = (oldest key old a).or (oldest key new a) := List.find?_append

theorem oldest_singleton_of_ne {e : ε} {a : α} (h : key e ≠ a) : oldest key [e] a = none := by
  rw [oldest, List.find?_cons, decide_eq_false h]
  rfl

theorem oldest_isSome_iff {log : List ε} {a : α} : (oldest key log a).isSome ↔ ∃ e ∈ log, key e = a := by
  simp [oldest]

theorem oldest_filter {log : List ε} {a : α} {p : ε → Bool} (h : ∀ e ∈ log, key e = a → p e = true) :
    oldest key (log.filter p) a = oldest key log a := by
  induction log with
  | nil => rfl
  | cons e log ih =>
    rw [forall_mem_cons] at h
    rw [filter_cons, oldest, oldest, List.find?_cons]
    split_ifs with hp
    · rw [List.find?_cons]
      split
      · rfl
      · exact ih h.2
    · rw [decide_eq_false fun hkey => hp (h.1 hkey)]
      exact ih h.2

theorem undo_update_of_covered {log : List ε} {a p : α} (h : a = p → ∃ e ∈ log, key e = p) (v : β) (mem : α → β) :
    undo key val log (Function.update mem p v) a = undo key val log mem a := by
  rw [undo_apply, undo_apply]
  by_cases hap : a = p
  · subst hap
    obtain ⟨e, he⟩ := Option.isSome_iff_exists.1 (oldest_isSome_iff.2 (h rfl))
    rw [he, Option.elim_some, Option.elim_some]
  · rw [Function.update_of_ne hap]

/-! ## Compaction -/

variable (key) (exempt : ε → Prop)

/-- `kept` has the oldest entry of every address of `log`, and others only where they are exempt. -/
structure Compacts (log kept : List ε) : Prop where
  oldest_eq : ∀ a, oldest key kept a = oldest key log a
  thin : kept.Pairwise fun e e' => key e = key e' → exempt e'
  sublist : kept.Sublist log

variable {key exempt} {log kept : List ε} {e : ε}

theorem Compacts.nil : Compacts key exempt [] [] := ⟨fun _ => rfl, .nil, .slnil⟩

section
variable (C : Compacts key exempt log kept)
include C

theorem Compacts.keep (h : exempt e ∨ ∀ e' ∈ log, key e' ≠ key e) : Compacts key exempt (log ++ [e]) (kept ++ [e]) where
  oldest_eq a := by rw [oldest_append, oldest_append, C.oldest_eq]
  thin := by
    rw [pairwise_append]
    refine ⟨C.thin, pairwise_singleton _ _, fun e' he' e'' he'' heq => ?_⟩
    rw [mem_singleton] at he''
    subst he''
    exact h.resolve_right fun hfirst => hfirst e' (C.sublist.subset he') heq
  sublist := C.sublist.append (List.Sublist.refl _)

theorem Compacts.drop (h : ∃ e' ∈ log, key e' = key e) : Compacts key exempt (log ++ [e]) kept where
  oldest_eq a := by
    rw [C.oldest_eq, oldest_append]
    by_cases hkey : key e = a
    · subst hkey
      obtain ⟨e', he'⟩ := Option.isSome_iff_exists.1 (oldest_isSome_iff.2 h)
      rw [he', Option.some_or]
    · rw [oldest_singleton_of_ne hkey, Option.or_none]
  thin := C.thin
  sublist := C.sublist.trans (sublist_append_left _ _)

theorem Compacts.exists_iff (a : α) : (∃ e ∈ kept, key e = a) ↔ ∃ e ∈ log, key e = a := by
  rw [← oldest_isSome_iff, ← oldest_isSome_iff, C.oldest_eq]

end

end UndoLog
