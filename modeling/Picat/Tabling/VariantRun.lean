import Picat.Tabling.Subgoals

/-!
# The answers of a subgoal

* `AnswerPart.Lists` : the answers there are; `Lists.tableProduce` : what becomes of them.
-/

namespace Picat

open Chains Variants List

/-- `GT_ANSWER_TABLE`, with the bit `SUBGOAL_ANS_REVISED_BIT` of the subgoal. -/
inductive AnswerPart
  | empty
  | one (answer : List TabledTerm) (revised : Bool)
  | table (t : AnswerTable)

namespace AnswerPart

def tableOf (answer : List TabledTerm) (revised : Bool) : AnswerTable :=
  { AnswerTable.allocateAnswerTable answer with revised := revised }

/-- `table_produce` with `opt_arg_index == 0`. -/
def tableProduce (tableCard : ℕ) (stackArgs : List HeapTerm) (malloc : Bool) : AnswerPart → Option AnswerPart
  | empty => some (one (numberVarCopyAnswerArgsToTableArea stackArgs).terms true)
  | one answer revised =>
    if tableCard = 1 then some (one answer revised)
    else do
      let (_, t) ← (tableOf answer revised).addTableAnswer stackArgs malloc
      some (table t)
  | table t =>
    if tableCard = t.count then some (table t)
    else do
      let (_, t) ← t.addTableAnswer stackArgs malloc
      some (table t)

def answers : AnswerPart → List (List TabledTerm)
  | empty => []
  | one answer _ => [answer]
  | table t => t.answers

def Meets (tableCard : ℕ) (args : List TabledTerm) : AnswerPart → Prop
  | empty => True
  | one answer revised => tableCard ≠ 1 → (tableOf answer revised).Meets args
  | table t => tableCard ≠ t.count → t.Meets args

instance (tableCard : ℕ) (args : List TabledTerm) (part : AnswerPart) : Decidable (part.Meets tableCard args) :=
  match part with
  | empty => .isTrue trivial
  | one answer revised => inferInstanceAs (Decidable (tableCard ≠ 1 → (tableOf answer revised).Meets args))
  | table t => inferInstanceAs (Decidable (tableCard ≠ t.count → t.Meets args))

/-- A table lists its answers, and everything else in it agrees with the list. -/
def Listed : AnswerPart → Prop
  | table t => t.Lists t.records
  | _ => True

/-- The first answers up to a limit; `0` is no limit. -/
def limited {α : Type*} (tableCard : ℕ) (l : List α) : List α := if tableCard = 0 then l else l.take tableCard

theorem limited_firsts {α : Type*} [DecidableEq α] (tableCard : ℕ) (seen : List α) (x : α) :
    limited tableCard (firsts seen [x]) =
      if tableCard ≠ 0 ∧ (limited tableCard seen).length = tableCard then limited tableCard seen
      else firsts (limited tableCard seen) [x] := by
  by_cases hzero : tableCard = 0
  · simp [limited, hzero]
  rw [limited, limited, if_neg hzero, if_neg hzero]
  by_cases hfull : tableCard ≤ seen.length
  · rw [if_pos ⟨hzero, length_take_of_le hfull⟩]
    obtain ⟨rest, hrest⟩ := @prefix_firsts _ _ seen [x]
    rw [← hrest, take_append_of_le_length hfull]
  · have hlen : (firsts seen [x]).length ≤ tableCard := by
      rw [firsts, firsts, firsts]
      split_ifs
      · omega
      · rw [length_append, length_singleton]
        omega
    rw [take_of_length_le (Nat.le_of_not_le hfull), take_of_length_le hlen, if_neg fun h => hfull h.2.ge]

theorem table_addTableAnswer {t : AnswerTable} (h : t.Lists t.records) (hnodup : t.answers.Nodup)
    {answer : List HeapTerm} (hmeets : t.Meets (answerTerms answer)) (malloc : Bool) :
    ∃ r t', t.addTableAnswer answer malloc = some (r, t') ∧ t'.Lists t'.records ∧
      t'.answers = firsts t.answers [answerTerms answer] ∧ (r = true ↔ answerTerms answer ∉ t.answers) := by
  have hadd := h.addTableAnswer hnodup hmeets malloc
  rw [firsts, firsts, firsts]
  split_ifs with hmem
  · rw [AnswerTable.answers] at hmem
    rw [if_pos hmem] at hadd
    exact ⟨false, t, hadd, h, rfl, by simpa [AnswerTable.answers] using hmem⟩
  · rw [AnswerTable.answers] at hmem
    rw [if_neg hmem] at hadd
    obtain ⟨t', hadd, -, hlists, hmap⟩ := hadd
    refine ⟨true, t', hadd, hlists.records_eq.symm ▸ hlists, ?_, by simpa [AnswerTable.answers] using hmem⟩
    rw [hlists.answers_eq, hmap, AnswerTable.answers]

theorem listed_tableOf (answer : List TabledTerm) (revised : Bool) :
    (tableOf answer revised).Lists (tableOf answer revised).records ∧ (tableOf answer revised).answers = [answer] := by
  have h := AnswerTable.lists_allocate answer
  have h' : (tableOf answer revised).Lists [0] := ⟨h.chain, h.last_eq, h.count_eq, h.lt_top, h.holds⟩
  refine ⟨h'.records_eq.symm ▸ h', ?_⟩
  rw [h'.answers_eq]
  rfl

theorem exists_tableProduce {tableCard : ℕ} {part : AnswerPart} (h : part.Listed) {seen : List (List TabledTerm)}
    (hseen : part.answers = limited tableCard seen) (hnodup : seen.Nodup)
    {answer : List HeapTerm} (hmeets : part.Meets tableCard (answerTerms answer)) (malloc : Bool) :
    ∃ part', part.tableProduce tableCard answer malloc = some part' ∧ part'.Listed ∧
      part'.answers = limited tableCard (firsts seen [answerTerms answer]) := by
  have hnodup' : part.answers.Nodup := by
    rw [hseen, limited]
    split_ifs
    · exact hnodup
    · exact hnodup.sublist (take_sublist _ _)
  have htable : ∀ t : AnswerTable, t.Lists t.records → t.answers = part.answers → t.Meets (answerTerms answer) →
      ¬(tableCard ≠ 0 ∧ t.answers.length = tableCard) → ∃ part', (do
        let (_, t) ← t.addTableAnswer answer malloc
        some (table t)) = some part' ∧ part'.Listed ∧
          part'.answers = limited tableCard (firsts seen [answerTerms answer]) := fun t ht hanswers hmeets hroom => by
    obtain ⟨r, t', hadd, hlists, hfirsts, -⟩ := table_addTableAnswer ht (hanswers ▸ hnodup') hmeets malloc
    refine ⟨table t', by rw [hadd]; rfl, hlists, ?_⟩
    rw [limited_firsts, ← hseen, ← hanswers, if_neg hroom]
    exact hfirsts
  cases part with
  | empty =>
    refine ⟨_, rfl, trivial, ?_⟩
    rw [limited_firsts, ← hseen, if_neg fun h => h.1 h.2.symm]
    rfl
  | one first revised =>
    obtain ⟨hlists, hanswers⟩ := listed_tableOf first revised
    by_cases hone : tableCard = 1
    · refine ⟨one first revised, if_pos hone, trivial, ?_⟩
      rw [limited_firsts, ← hseen, if_pos ⟨by omega, hone.symm⟩]
    · obtain ⟨part', hproduce, hpart'⟩ := htable _ hlists hanswers (hmeets hone) (by rw [hanswers]; simp; omega)
      exact ⟨part', by rw [AnswerPart.tableProduce, if_neg hone, hproduce], hpart'⟩
  | table t =>
    have hcount : t.count = t.answers.length := by rw [AnswerTable.answers, length_map, AnswerTable.Lists.count_eq h]
    by_cases hfull : tableCard = t.count
    · refine ⟨table t, if_pos hfull, h, ?_⟩
      have hpos : 0 < t.answers.length := by
        obtain ⟨init, hinit⟩ := AnswerTable.Lists.exists_concat h
        rw [AnswerTable.answers, hinit, length_map, length_append]
        exact Nat.lt_add_left _ Nat.one_pos
      rw [limited_firsts, ← hseen, if_pos ⟨by omega, (hfull.trans hcount).symm⟩]
    · obtain ⟨part', hproduce, hpart'⟩ := htable t h rfl (hmeets hfull) (by omega)
      exact ⟨part', by rw [AnswerPart.tableProduce, if_neg hfull, hproduce], hpart'⟩

end AnswerPart

end Picat

/-! # Runs of tabled calls and answers -/

namespace Picat

open Chains Variants Function List

/-- The subgoal table, and `GT_ANSWER_TABLE` of its entries. -/
structure TableArea where
  subgoals : SubgoalTable
  answers : ℕ → AnswerPart

def TableArea.start : TableArea := ⟨.start, fun _ => .empty⟩

/-- A call from the frame slot `v`, the limit of a plan, and an answer from the frame slot `v`. -/
inductive TableAction
  | call (sym : Sym) (v : ℕ) (ts : List HeapTerm)
  | limit (e limit : ℕ)
  | answer (e v : ℕ) (ts : List HeapTerm)

/-- A call with its entry, and an answer as it was copied. -/
inductive TableEvent
  | call (sym : Sym) (ts : List HeapTerm) (e : ℕ)
  | answer (e : ℕ) (ts : List HeapTerm)

def answersFor (e : ℕ) : List TableEvent → List (List HeapTerm)
  | [] => []
  | .call .. :: h => answersFor e h
  | .answer e' ts :: h => if e' = e then ts :: answersFor e h else answersFor e h

/-- The limit is written when `table_allocate` starts the evaluation of a plan. -/
inductive TableRun (P : Preds) (ok : TableArea → TableAction → Prop) : List TableEvent → TableArea → Prop
  | start : TableRun P ok [] .start
  | call {h : List TableEvent} {w : TableArea} (hrun : TableRun P ok h w) {sym : Sym} (v : ℕ) {ts : List HeapTerm}
      (hlen : ts.length = P.arity sym) (hok : ok w (.call sym v ts)) {fresh : ℕ} {malloc : Bool} {e : ℕ}
      {t' : SubgoalTable}
      (hlookup : w.subgoals.lookupSubgoalTable P sym (P.callArgs sym v ts) fresh malloc = some (.entry e, t')) :
      TableRun P ok (h ++ [.call sym ts e]) { w with subgoals := t' }
  | limit {h : List TableEvent} {w : TableArea} (hrun : TableRun P ok h w) {e limit : ℕ} (he : e < w.subgoals.top)
      (hplan : w.subgoals.sym e = P.planPsc) (hok : ok w (.limit e limit)) :
      TableRun P ok h { w with subgoals := w.subgoals.setLimit e limit }
  | answer {h : List TableEvent} {w : TableArea} (hrun : TableRun P ok h w) {e v : ℕ} {ts : List HeapTerm}
      (he : e < w.subgoals.top) (hlen : ts.length = P.arity (w.subgoals.sym e)) (hok : ok w (.answer e v ts))
      {malloc : Bool} {part : AnswerPart}
      (hproduce : (w.answers e).tableProduce (P.tableCard (w.subgoals.sym e)) (P.callArgs (w.subgoals.sym e) v ts)
        malloc = some part) :
      TableRun P ok (h ++ [.answer e (P.callArgs (w.subgoals.sym e) v ts)])
        { w with answers := update w.answers e part }

def HashKept (_ : TableArea) : TableAction → Prop
  | .limit _ limit => wordHash limit = 0
  | _ => True

/-- The limit of a plan has no hash code, a call has arguments, and its comparisons and those of an answer get
through. -/
def Compared (P : Preds) (w : TableArea) : TableAction → Prop
  | .call sym _ ts => 0 < P.arity sym ∧ w.subgoals.Meets P sym (answerTerms (P.tabledPart sym ts))
  | .limit _ limit => wordHash limit = 0
  | .answer e v ts => (w.answers e).Meets (P.tableCard (w.subgoals.sym e))
      (answerTerms (P.callArgs (w.subgoals.sym e) v ts))

variable {e : ℕ} {sym : Sym} {ts : List HeapTerm}

namespace TableRun

variable {P : Preds} {ok : TableArea → TableAction → Prop} {h : List TableEvent} {w : TableArea}

theorem hashKept_of_compared {w : TableArea} {a : TableAction} (h : Compared P w a) : HashKept w a := by
  cases a with
  | call sym v ts => trivial
  | limit e limit => exact h
  | answer e v ts => trivial

theorem lookedUp_entry {t t' : SubgoalTable} {k : List TabledTerm} (ht : t.Entered P)
    (h : t.LookedUp P sym k (.entry e) t') :
    t'.Entered P ∧ e < t'.top ∧ t'.IsEntryOf P sym k e ∧ t.top ≤ t'.top ∧
      ∀ a < t.top, t'.sym a = t.sym a ∧ t'.args a = t.args a := by
  cases h with
  | found _ he heq => exact ⟨ht, he, heq, Nat.le_refl _, fun _ _ => ⟨rfl, rfl⟩⟩
  | entered _ h htop hnew hold =>
    exact ⟨h, htop ▸ Nat.lt_succ_self _, hnew, htop ▸ Nat.le_succ _, hold⟩

theorem isEntryOf_congr {t t' : SubgoalTable} {a : ℕ} (h : t'.sym a = t.sym a ∧ t'.args a = t.args a)
    {k : List TabledTerm} : t'.IsEntryOf P sym k a ↔ t.IsEntryOf P sym k a := by
  rw [SubgoalTable.IsEntryOf, SubgoalTable.IsEntryOf, SubgoalTable.key, SubgoalTable.key, h.1, h.2]

/-- The table of entries of a run, and the entry of every call. -/
structure Holds (P : Preds) (h : List TableEvent) (w : TableArea) : Prop where
  entered : w.subgoals.Entered P
  call_entry : ∀ sym ts e, .call sym ts e ∈ h → e < w.subgoals.top ∧
    w.subgoals.IsEntryOf P sym (answerTerms (P.tabledPart sym ts)) e

theorem holds (hkept : ∀ w a, ok w a → HashKept w a) (hrun : TableRun P ok h w) : Holds P h w := by
  induction hrun with
  | start => exact ⟨SubgoalTable.entered_start P, fun _ _ _ h => absurd h not_mem_nil⟩
  | call _ v hlen _ hlookup ih =>
    obtain ⟨hentered, he, heq, htop, hold⟩ := lookedUp_entry ih.entered (ih.entered.lookedUp hlen hlookup)
    refine ⟨hentered, fun sym' ts' e' hmem => ?_⟩
    rcases mem_append.1 hmem with hmem | hmem
    · obtain ⟨he', heq'⟩ := ih.call_entry sym' ts' e' hmem
      exact ⟨Nat.lt_of_lt_of_le he' htop, (isEntryOf_congr (hold e' he')).2 heq'⟩
    · obtain ⟨rfl, rfl, rfl⟩ := TableEvent.call.inj (mem_singleton.1 hmem)
      exact ⟨he, heq⟩
  | limit _ he hplan hok ih =>
    obtain ⟨hentered, hkey⟩ := ih.entered.setLimit he hplan (hkept _ _ hok)
    refine ⟨hentered, fun sym' ts' e' hmem => ?_⟩
    obtain ⟨he', heq'⟩ := ih.call_entry sym' ts' e' hmem
    exact ⟨he', heq'.1, (hkey e').trans heq'.2⟩
  | answer _ _ _ _ _ ih =>
    refine ⟨ih.entered, fun sym' ts' e' hmem => ih.call_entry sym' ts' e' ?_⟩
    rcases mem_append.1 hmem with hmem | hmem
    · exact hmem
    · cases mem_singleton.1 hmem

/-! ## Compared runs -/

theorem answersFor_append (e : ℕ) (h h' : List TableEvent) : answersFor e (h ++ h') = answersFor e h ++ answersFor e h' := by
  induction h with
  | nil => rfl
  | cons event h ih =>
    cases event with
    | call sym ts e' => exact ih
    | answer e' ts =>
      rw [cons_append, answersFor, answersFor]
      split_ifs
      · exact congrArg (List.cons ts) ih
      · exact ih

/-- Different entries are of different calls, every one is of a call that came, and lists the answers that came. -/
structure Tabled (P : Preds) (h : List TableEvent) (w : TableArea) : Prop where
  eq_of_key : ∀ e < w.subgoals.top, ∀ e' < w.subgoals.top, w.subgoals.sym e = w.subgoals.sym e' →
    w.subgoals.key P e = w.subgoals.key P e' → e = e'
  exists_call : ∀ e < w.subgoals.top, ∃ sym ts, .call sym ts e ∈ h
  listed : ∀ e, (w.answers e).Listed
  answers_eq : ∀ e, (w.answers e).answers =
    AnswerPart.limited (P.tableCard (w.subgoals.sym e)) (firsts [] ((answersFor e h).map answerTerms))
  answersFor_top : ∀ e, w.subgoals.top ≤ e → answersFor e h = []

theorem Tabled.call {t' : SubgoalTable} {sym : Sym} {ts : List HeapTerm} {e : ℕ} (hw : Tabled P h w)
    (hlooked : w.subgoals.LookedUp P sym (answerTerms (P.tabledPart sym ts)) (.entry e) t')
    (hnew : e = w.subgoals.top →
      ∀ a < w.subgoals.top, ¬w.subgoals.IsEntryOf P sym (answerTerms (P.tabledPart sym ts)) a) :
    Tabled P (h ++ [.call sym ts e]) { w with subgoals := t' } := by
  have hfor : ∀ a, answersFor a (h ++ [.call sym ts e]) = answersFor a h := fun a => by
    rw [answersFor_append]
    exact append_nil _
  cases hlooked with
  | found _ he heq =>
    refine ⟨hw.eq_of_key, fun a ha => ?_, hw.listed, fun a => ?_, fun a ha => ?_⟩
    · obtain ⟨sym', ts', hmem⟩ := hw.exists_call a ha
      exact ⟨sym', ts', mem_append_left _ hmem⟩
    · rw [hfor]
      exact hw.answers_eq a
    · rw [hfor]
      exact hw.answersFor_top a ha
  | entered _ ht' htop heq hold =>
    have hkey : ∀ a < w.subgoals.top, t'.key P a = w.subgoals.key P a := fun a ha => by
      rw [SubgoalTable.key, SubgoalTable.key, (hold a ha).1, (hold a ha).2]
    have hnot : ∀ a < w.subgoals.top, t'.sym a = t'.sym w.subgoals.top → t'.key P a ≠ t'.key P w.subgoals.top :=
      fun a ha hsym hkeys => hnew rfl a ha ⟨(hold a ha).1.symm.trans (hsym.trans heq.1),
        (hkey a ha).symm.trans (hkeys.trans heq.2)⟩
    refine ⟨fun a ha b hb hsym hkeys => ?_, fun a ha => ?_, hw.listed, fun a => ?_, fun a ha => ?_⟩
    · change a < t'.top at ha
      change b < t'.top at hb
      rw [htop, Nat.lt_succ_iff_lt_or_eq] at ha hb
      rcases ha with ha | rfl
      · rcases hb with hb | rfl
        · refine hw.eq_of_key a ha b hb ?_ ?_
          · rw [← (hold a ha).1, ← (hold b hb).1]
            exact hsym
          · rw [← hkey a ha, ← hkey b hb]
            exact hkeys
        · exact absurd hkeys (hnot a ha hsym)
      · rcases hb with hb | rfl
        · exact absurd hkeys.symm (hnot b hb hsym.symm)
        · rfl
    · change a < t'.top at ha
      rw [htop, Nat.lt_succ_iff_lt_or_eq] at ha
      rcases ha with ha | rfl
      · obtain ⟨sym', ts', hmem⟩ := hw.exists_call a ha
        exact ⟨sym', ts', mem_append_left _ hmem⟩
      · exact ⟨sym, ts, mem_append_right _ (mem_singleton_self _)⟩
    · rw [hfor]
      rcases Nat.lt_or_ge a w.subgoals.top with ha | ha
      · change (w.answers a).answers = AnswerPart.limited (P.tableCard (t'.sym a)) _
        rw [(hold a ha).1]
        exact hw.answers_eq a
      · have hempty := hw.answers_eq a
        rw [hw.answersFor_top a ha] at hempty ⊢
        rw [hempty]
        simp [AnswerPart.limited, firsts]
    · rw [hfor]
      change t'.top ≤ a at ha
      rw [htop] at ha
      exact hw.answersFor_top a (Nat.le_of_succ_le ha)

theorem Tabled.limit {e limit : ℕ} (hw : Tabled P h w)
    (hkey : ∀ a, (w.subgoals.setLimit e limit).key P a = w.subgoals.key P a) :
    Tabled P h { w with subgoals := w.subgoals.setLimit e limit } := by
  refine ⟨fun a ha b hb hsym hkeys => hw.eq_of_key a ha b hb hsym ?_, hw.exists_call, hw.listed, hw.answers_eq,
    hw.answersFor_top⟩
  rw [← hkey a, ← hkey b]
  exact hkeys

theorem Tabled.exists_answer (hw : Tabled P h w)
    (hmeets : (w.answers e).Meets (P.tableCard (w.subgoals.sym e)) (answerTerms ts)) (malloc : Bool) :
    ∃ part, (w.answers e).tableProduce (P.tableCard (w.subgoals.sym e)) ts malloc = some part ∧ part.Listed ∧
      part.answers = AnswerPart.limited (P.tableCard (w.subgoals.sym e))
        (firsts [] ((answersFor e (h ++ [.answer e ts])).map answerTerms)) := by
  obtain ⟨part, hproduce, hlisted, hanswers⟩ := AnswerPart.exists_tableProduce (hw.listed e) (hw.answers_eq e)
    (nodup_firsts nodup_nil) hmeets malloc
  refine ⟨part, hproduce, hlisted, ?_⟩
  rw [hanswers, answersFor_append, List.map_append, firsts_append]
  simp [answersFor]

theorem Tabled.answer (hw : Tabled P h w) (he : e < w.subgoals.top)
    (hmeets : (w.answers e).Meets (P.tableCard (w.subgoals.sym e)) (answerTerms ts)) {malloc : Bool} {part : AnswerPart}
    (hproduce : (w.answers e).tableProduce (P.tableCard (w.subgoals.sym e)) ts malloc = some part) :
    Tabled P (h ++ [.answer e ts]) { w with answers := update w.answers e part } := by
  obtain ⟨part', hproduce', hlisted, hanswers⟩ := hw.exists_answer hmeets malloc
  obtain rfl : part' = part := Option.some.inj (hproduce'.symm.trans hproduce)
  have hfor : ∀ a, a ≠ e → answersFor a (h ++ [.answer e ts]) = answersFor a h := fun a ha => by
    rw [answersFor_append, answersFor, if_neg (Ne.symm ha), answersFor, append_nil]
  refine ⟨hw.eq_of_key, fun a ha => ?_, fun a => ?_, fun a => ?_, fun a ha => ?_⟩
  · obtain ⟨sym, ts', hmem⟩ := hw.exists_call a ha
    exact ⟨sym, ts', mem_append_left _ hmem⟩
  · by_cases ha : a = e
    · subst ha
      change (update w.answers a part' a).Listed
      rw [update_self]
      exact hlisted
    · change (update w.answers e part' a).Listed
      rw [update_of_ne ha]
      exact hw.listed a
  · by_cases ha : a = e
    · subst ha
      change (update w.answers a part' a).answers = _
      rw [update_self]
      exact hanswers
    · change (update w.answers e part' a).answers = _
      rw [update_of_ne ha, hfor a ha]
      exact hw.answers_eq a
  · rw [hfor a (Nat.ne_of_gt (Nat.lt_of_lt_of_le he ha))]
    exact hw.answersFor_top a ha

theorem tabled (hrun : TableRun P (Compared P) h w) : Tabled P h w := by
  induction hrun with
  | start =>
    refine ⟨fun _ h => absurd h (Nat.not_lt_zero _), fun _ h => absurd h (Nat.not_lt_zero _), fun _ => trivial,
      fun e => ?_, fun _ _ => rfl⟩
    simp [TableArea.start, AnswerPart.answers, answersFor, firsts, AnswerPart.limited]
  | @call h w hrun sym v ts hlen hok fresh malloc e t' hlookup ih =>
    have hentered := (hrun.holds fun _ _ => hashKept_of_compared).entered
    obtain ⟨r, t'', hlookup', -, hnew⟩ := @SubgoalTable.Entered.exists_lookup P w.subgoals sym hentered v ts hlen hok.1
      hok.2 fresh malloc
    obtain ⟨rfl, rfl⟩ := Prod.mk.inj (Option.some.inj (hlookup'.symm.trans hlookup))
    exact ih.call (hentered.lookedUp hlen hlookup) fun heq => hnew (congrArg _ heq)
  | @limit h w hrun e limit he hplan hok ih =>
    exact ih.limit ((hrun.holds fun _ _ => hashKept_of_compared).entered.setLimit he hplan hok).2
  | answer _ he _ hok hproduce ih => exact ih.answer he hok hproduce

end TableRun

/-- Calls get the same entry if and only if they are of the same predicate with variants as tabled arguments; there are
no other entries; the next call gets an entry, or its output arguments are not free. The answers of an entry are those
that came for it, in order and without variants, up to the limit of its predicate; the next one is taken in. -/
theorem tableRun_variant {P : Preds} {h : List TableEvent} {w : TableArea} (hrun : TableRun P (Compared P) h w) :
    (∀ sym ts e sym' ts' e', .call sym ts e ∈ h → .call sym' ts' e' ∈ h → (e = e' ↔ sym = sym' ∧
      Variant (HeapTerm.trees (P.tabledPart sym ts)) (HeapTerm.trees (P.tabledPart sym' ts')))) ∧
    (∀ e < w.subgoals.top, ∃ sym ts, .call sym ts e ∈ h) ∧
    (∀ sym v ts fresh malloc, ts.length = P.arity sym → Compared P w (.call sym v ts) → ∃ r t',
      w.subgoals.lookupSubgoalTable P sym (P.callArgs sym v ts) fresh malloc = some (r, t') ∧ (r = .outputModeError ↔
          SubgoalTable.outputArgsFree (P.callMode sym) (answerTerms (P.callArgs sym v ts)) = false) ∧
        (r = .outputModeError → t' = w.subgoals)) ∧
    (∀ e, (w.answers e).answers =
      AnswerPart.limited (P.tableCard (w.subgoals.sym e)) (firsts [] ((answersFor e h).map answerTerms))) ∧
    (∀ ts us, answerTerms ts = answerTerms us ↔ Variant (HeapTerm.trees ts) (HeapTerm.trees us)) ∧
    (∀ e v ts malloc, Compared P w (.answer e v ts) → ∃ part,
      (w.answers e).tableProduce (P.tableCard (w.subgoals.sym e)) (P.callArgs (w.subgoals.sym e) v ts) malloc =
        some part) := by
  have hholds := hrun.holds fun _ _ => TableRun.hashKept_of_compared
  have htabled := hrun.tabled
  refine ⟨fun sym ts e sym' ts' e' hmem hmem' => ?_, htabled.exists_call, fun sym v ts fresh malloc hlen hok => ?_,
    htabled.answers_eq, fun ts us => answerTerms_eq_iff, fun e v ts malloc hok => ?_⟩
  · obtain ⟨he, hsym, hkey⟩ := hholds.call_entry sym ts e hmem
    obtain ⟨he', hsym', hkey'⟩ := hholds.call_entry sym' ts' e' hmem'
    rw [← answerTerms_eq_iff, ← hkey, ← hkey', ← hsym, ← hsym']
    refine ⟨fun heq => heq ▸ ⟨rfl, rfl⟩, fun heq => htabled.eq_of_key e he e' he' heq.1 heq.2⟩
  · obtain ⟨r, t', hlookup, hmode, -⟩ := @SubgoalTable.Entered.exists_lookup P w.subgoals sym hholds.entered v ts hlen
      hok.1 hok.2 fresh malloc
    refine ⟨r, t', hlookup, hmode, fun hr => ?_⟩
    have hlooked := hholds.entered.lookedUp hlen hlookup
    rw [hr] at hlooked
    cases hlooked
    rfl
  · obtain ⟨part, hproduce, -⟩ := htabled.exists_answer hok malloc
    exact ⟨part, hproduce⟩

/-- The predicate of plans at the address `8`, and predicates with one argument everywhere else. -/
def samplePreds : Preds where
  arity := fun sym => if sym = 8 then 2 else 1
  callMode := fun _ => 0
  ntLastArg := fun sym => sym == 8
  tableCard := fun _ => 0
  planPsc := 8
  arity_planPsc := rfl
  ntLastArg_planPsc := rfl
  arity_pos := fun sym _ => by split_ifs <;> omega

theorem tableRun_variant_three_calls : ∃ w e e' e'', TableRun samplePreds (Compared samplePreds)
      [.call 16 [.var 3] e, .call 16 [.var 5] e', .call 16 [.atm (intTag + 4)] e''] w ∧ e = e' ∧ e' ≠ e'' := by
  have hcalls : (SubgoalTable.start.lookupSubgoalTable samplePreds 16 [.var 3] 0 true).any (fun p =>
      decide (p.1 = .entry 0 ∧ p.2.Meets samplePreds 16 [.var 0]) &&
        (p.2.lookupSubgoalTable samplePreds 16 [.var 5] 0 true).any fun q =>
          decide (q.1 = .entry 0 ∧ q.2.Meets samplePreds 16 [.atm (intTag + 4)]) &&
            (q.2.lookupSubgoalTable samplePreds 16 [.atm (intTag + 4)] 0 true).any fun r =>
              decide (r.1 = .entry 1)) = true := by
    decide +kernel
  simp only [Option.any_eq_true, Bool.and_eq_true, decide_eq_true_eq, Prod.exists] at hcalls
  obtain ⟨_, t₁, h₁, ⟨rfl, hmeets₁⟩, _, t₂, h₂, ⟨rfl, hmeets₂⟩, _, t₃, h₃, rfl⟩ := hcalls
  have hrun : TableRun samplePreds (Compared samplePreds) _ _ :=
    ((TableRun.start.call 0 rfl ⟨Nat.one_pos, by decide +kernel⟩ h₁).call 0 rfl ⟨Nat.one_pos, hmeets₁⟩ h₂).call 0 rfl
      ⟨Nat.one_pos, hmeets₂⟩ h₃
  obtain ⟨hentry, -⟩ := tableRun_variant hrun
  refine ⟨_, _, _, _, hrun, ?_, ?_⟩
  · exact (hentry 16 [.var 3] 0 16 [.var 5] 0 (by simp) (by simp)).2
      ⟨rfl, answerTerms_eq_iff.1 (by decide)⟩
  · intro heq
    have := ((hentry 16 [.var 5] 0 16 [.atm (intTag + 4)] 1 (by simp) (by simp)).1 heq).2
    exact absurd (answerTerms_eq_iff.2 this) (by decide)

/-- The call `p(76)` and then `p([1])`, where `[]` is the atom at the address `8`: both hash codes belong in one bucket,
and the list is compared with the integer as if it were one. -/
theorem tableRun_list_and_integer : ∃ w,
    TableRun samplePreds (fun _ _ => True) [.call 16 [.atm (intTag + 4 * 76)] 0] w ∧
      w.subgoals.lookupSubgoalTable samplePreds 16 (samplePreds.callArgs 16 0 [.lst (.atm (intTag + 4)) (.atm 10)]) 0
        true = none := by
  have hcalls : (SubgoalTable.start.lookupSubgoalTable samplePreds 16 [.atm (intTag + 4 * 76)] 0 true).any (fun p =>
      decide (p.1 = .entry 0) &&
        (p.2.lookupSubgoalTable samplePreds 16 [.lst (.atm (intTag + 4)) (.atm 10)] 0 true).isNone) = true := by
    decide +kernel
  simp only [Option.any_eq_true, Bool.and_eq_true, decide_eq_true_eq, Prod.exists, Option.isNone_iff_eq_none] at hcalls
  obtain ⟨_, t, hlookup, rfl, hnone⟩ := hcalls
  exact ⟨_, TableRun.start.call 0 rfl trivial hlookup, hnone⟩

open SubgoalTable

/-! ## Hash codes of tabled calls -/

variable {P : Preds} {h : List TableEvent} {w : TableArea}

theorem lookupSubgoalTableNoCopyHcode_eq (sym : Sym) (ts : List HeapTerm) :
    lookupSubgoalTableNoCopyHcode sym ts = (numberVarCopySubgoalArgsToTableArea (wordHash sym) ts).hcode := by
  cases ts with
  | nil => rfl
  | cons t ts =>
    rw [lookupSubgoalTableNoCopyHcode, numberVarCopySubgoalArgsToTableArea, (copyArgs_spec _ _ ts).hcode_eq,
      (copy_spec [] t).hcode_eq]

theorem lookupSubgoalTableNoCopyHcode_concat (sym : Sym) (ts : List HeapTerm) {t u : HeapTerm}
    (h : bpHashval t = bpHashval u) :
    lookupSubgoalTableNoCopyHcode sym (ts ++ [t]) = lookupSubgoalTableNoCopyHcode sym (ts ++ [u]) := by
  cases ts with
  | nil => simp only [nil_append, lookupSubgoalTableNoCopyHcode, h]
  | cons first ts =>
    simp only [cons_append, lookupSubgoalTableNoCopyHcode, bpHashvalArgs_eq_foldl, foldl_append,
      foldl_cons, foldl_nil, h]

theorem lookupSubgoalTableNoCopyHcode_callArgs {v : ℕ} (hlen : ts.length = P.arity sym)
    (hlast : P.ntLastArg sym = true → ∀ t ∈ ts.getLast?, bpHashval t = 0) :
    lookupSubgoalTableNoCopyHcode sym ts =
      (numberVarCopySubgoalArgsToTableArea (wordHash sym) (P.callArgs sym v ts)).hcode := by
  rw [← lookupSubgoalTableNoCopyHcode_eq, Preds.callArgs]
  split_ifs with hnt
  · obtain ⟨init, t, rfl⟩ := (eq_nil_or_concat ts).resolve_left
      (ne_nil_of_length_pos (hlen ▸ P.arity_pos sym hnt))
    rw [concat_eq_append, dropLast_concat]
    refine lookupSubgoalTableNoCopyHcode_concat sym init (hlast hnt t ?_)
    rw [concat_eq_append, List.getLast?_concat]
    rfl
  · rfl

/-- The hash code of a term comes out of the copy, of the term and of the record alike. So does the one of a call: it is
registered with the code of its record, which a lookup without copies finds too if the last argument is tabled or has no
code. Whatever expansions and limits without a code there are between them, the entry of a call is in the bucket that
the calls with variants as tabled arguments search. -/
theorem tableRun_hash (P : Preds) : (∀ vs t, (numberVarCopyToTableArea vs t).hcode = bpHashval t ∧
      (numberVarCopyToTableArea vs t).term.hashvalOfNumberedTerm = bpHashval t) ∧
    (∀ sym v ts, ts.length = P.arity sym →
      (numberVarCopySubgoalArgsToTableArea (wordHash sym) (P.callArgs sym v ts)).hcode = hashvalOfTabledSubgoal sym
            (numberVarCopySubgoalArgsToTableArea (wordHash sym) (P.callArgs sym v ts)).terms ∧
        ((P.ntLastArg sym = true → ∀ t ∈ ts.getLast?, bpHashval t = 0) → lookupSubgoalTableNoCopyHcode sym ts =
          (numberVarCopySubgoalArgsToTableArea (wordHash sym) (P.callArgs sym v ts)).hcode)) ∧
    (∀ h w, TableRun P HashKept h w → ∀ sym ts e, .call sym ts e ∈ h → ∀ v ts', ts'.length = P.arity sym →
      Variant (HeapTerm.trees (P.tabledPart sym ts)) (HeapTerm.trees (P.tabledPart sym ts')) →
      w.subgoals.hcode e = (numberVarCopySubgoalArgsToTableArea (wordHash sym) (P.callArgs sym v ts')).hcode ∧
        e ∈ w.subgoals.bucket
          (numberVarCopySubgoalArgsToTableArea (wordHash sym) (P.callArgs sym v ts')).hcode) := by
  refine ⟨fun vs t => ⟨(copy_spec vs t).hcode_eq, (copy_spec vs t).hashval_eq⟩, fun sym v ts hlen => ⟨?_, fun hlast => ?_⟩,
    fun h w hrun sym ts e hmem v ts' hlen hvariant => ?_⟩
  · rw [subgoalTerms_eq, subgoalHcode_eq]
  · exact lookupSubgoalTableNoCopyHcode_callArgs hlen hlast
  · have hholds := hrun.holds fun _ _ h => h
    obtain ⟨he, heq⟩ := hholds.call_entry sym ts e hmem
    have hcode : w.subgoals.hcode e =
        (numberVarCopySubgoalArgsToTableArea (wordHash sym) (P.callArgs sym v ts')).hcode := by
      rw [hholds.entered.hcode_eq e he, heq.1, heq.2, answerTerms_eq_iff.2 hvariant, subgoalHcode_eq, hashval_callArgs]
    refine ⟨hcode, (hholds.entered.mem_bucket _).2 ⟨he, by rw [hcode]⟩⟩

theorem tableRun_hash_plan : ∃ w, TableRun samplePreds HashKept [.call 8 [.atm 10, .var 3] 0] w ∧
    0 ∈ w.subgoals.bucket (numberVarCopySubgoalArgsToTableArea (wordHash 8)
      (samplePreds.callArgs 8 1 [.atm 10, .var 5])).hcode := by
  have hcall : (SubgoalTable.start.lookupSubgoalTable samplePreds 8 [.atm 10, .var 0] 0 true).any (fun p =>
      decide (p.1 = .entry 0 ∧ 0 < p.2.top ∧ p.2.sym 0 = 8)) = true := by
    decide +kernel
  simp only [Option.any_eq_true, decide_eq_true_eq, Prod.exists] at hcall
  obtain ⟨_, t, hlookup, rfl, htop, hsym⟩ := hcall
  have hlimit : wordHash (intTag + 2 ^ 28) = 0 := by decide
  have hkept : HashKept ⟨t, fun _ => .empty⟩ (.limit 0 (intTag + 2 ^ 28)) := hlimit
  have hrun : TableRun samplePreds HashKept [.call 8 [.atm 10, .var 3] 0] _ :=
    (TableRun.start.call 0 rfl trivial hlookup).limit htop hsym hkept
  exact ⟨_, hrun, ((tableRun_hash samplePreds).2.2 _ _ hrun 8 [.atm 10, .var 3] 0 (mem_singleton_self _) 1
    [.atm 10, .var 5] rfl (answerTerms_eq_iff.1 (by decide))).2⟩

/-- A plan whose limit is `1`: the next expansion puts its entry in a bucket that no call searches. -/
theorem tableRun_hash_plan_limit : ∃ w, TableRun samplePreds (fun _ _ => True) [.call 8 [.atm 10, .var 3] 0] w ∧
    w.subgoals.hcode 0 ≠
      (numberVarCopySubgoalArgsToTableArea (wordHash 8) (samplePreds.callArgs 8 0 [.atm 10, .var 3])).hcode := by
  have hcall : (SubgoalTable.start.lookupSubgoalTable samplePreds 8 [.atm 10, .var 0] 0 true).any (fun p =>
      decide (p.1 = .entry 0 ∧ 0 < p.2.top ∧ p.2.sym 0 = 8 ∧ (p.2.setLimit 0 (intTag + 4)).hcode 0 ≠
        (numberVarCopySubgoalArgsToTableArea (wordHash 8) (samplePreds.callArgs 8 0 [.atm 10, .var 3])).hcode)) = true := by
    decide +kernel
  simp only [Option.any_eq_true, decide_eq_true_eq, Prod.exists] at hcall
  obtain ⟨_, t, hlookup, rfl, htop, hsym, hcode⟩ := hcall
  exact ⟨_, (TableRun.start.call 0 rfl trivial hlookup).limit htop hsym trivial, hcode⟩

end Picat
