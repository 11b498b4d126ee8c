import Picat.Lib.Ranking
import Picat.Tabling.Subgoals

/-!
# Answer tables with an optimized argument

* `optimalRun_best` : so it is after every run of ranked answers.
-/

namespace Picat

open Chains Ranking Function List

namespace Standard

variable (S : Standard)

def isSmallerTabledAnswer (optArgIndex : ℕ) (args1 args2 : List TabledTerm) : Bool :=
  S.tableAnsIsLt (args1.getD optArgIndex (.var 0)) (args2.getD optArgIndex (.var 0))

def isBiggerTabledAnswer (optArgIndex : ℕ) (args1 args2 : List TabledTerm) : Bool :=
  S.tableAnsIsGt (args1.getD optArgIndex (.var 0)) (args2.getD optArgIndex (.var 0))

def isBetter (maximize : Bool) (optArgIndex : ℕ) (args1 args2 : List TabledTerm) : Bool :=
  if maximize then S.isBiggerTabledAnswer optArgIndex args1 args2 else S.isSmallerTabledAnswer optArgIndex args1 args2

end Standard

namespace AnswerTable

def setLinks (t : AnswerTable) (next : ℕ → Option ℕ) (first last : ℕ) : AnswerTable :=
  { t with nextInTable := next, first := first, last := last }

/-- `insertTabledAnswerMin` and `insertTabledAnswerMax`, which differ in the comparison. -/
def insertTabledAnswer (better : List TabledTerm → List TabledTerm → Bool) (t : AnswerTable) (this : ℕ) :
    Option AnswerTable :=
  if better (t.args this) (t.args t.first) then
    some (t.setLinks (update t.nextInTable this (some t.first)) this t.last)
  else
    match advance (fun answer => !better (t.args this) (t.args answer)) t.nextInTable t.top t.first with
    | none => none
    | some (prev, none) =>
      some (t.setLinks (update (update t.nextInTable prev (some this)) this none) t.first this)
    | some (prev, some answer) =>
      some (t.setLinks (update (update t.nextInTable prev (some this)) this (some answer)) t.first t.last)

def resetLastTabledAnswer (t : AnswerTable) (answer lastAnswer : ℕ) : Option AnswerTable :=
  match advance (fun answer => answer != lastAnswer) t.nextInTable t.top answer with
  | some (prev, some _) => some (t.setLinks (update t.nextInTable prev none) t.first prev)
  | _ => none

/-- `repositionLastTabledAnswerMin` and `repositionLastTabledAnswerMax`. -/
def repositionLastTabledAnswer (better : List TabledTerm → List TabledTerm → Bool) (t : AnswerTable)
    (lastAnswer : ℕ) : Option AnswerTable :=
  if better (t.args lastAnswer) (t.args t.first) then
    (t.setLinks (update t.nextInTable lastAnswer (some t.first)) lastAnswer t.last).resetLastTabledAnswer
      t.first lastAnswer
  else
    match advance (fun answer => answer != lastAnswer && !better (t.args lastAnswer) (t.args answer))
        t.nextInTable t.top t.first with
    | some (prev, some answer) =>
      if answer ≠ lastAnswer then
        (t.setLinks (update (update t.nextInTable prev (some lastAnswer)) lastAnswer (some answer))
          t.first t.last).resetLastTabledAnswer answer lastAnswer
      else some t
    | _ => none

def removeAnswerFromAnswerTable (t : AnswerTable) (thisAnswer : ℕ) : Option AnswerTable := do
  let p ← t.chains.findLink thisAnswer t.top (.head (t.hcode thisAnswer % t.chains.size))
  some { t with chains := t.chains.write p (t.chains.next thisAnswer) }

/-- The last answer makes room for a better one: its record is taken out of the hash table, filled with the new answer,
and put in again, in the bucket of the new answer. -/
def replaceLast (t : AnswerTable) (hcode : ℕ) (args : List TabledTerm) : Option AnswerTable := do
  let t ← t.removeAnswerFromAnswerTable t.last
  some { t with
    args := update t.args t.last args
    chains := t.chains.push (hcode % t.chains.size) t.last }

def addTableOptimalAnswer (S : Standard) (t : AnswerTable) (stackArgs : List HeapTerm) (optArgIndex : ℕ)
    (maximize : Bool) (tableCard : ℕ) (malloc : Bool) : Option (Bool × AnswerTable) := do
  let this := numberVarCopyAnswerArgsToTableArea stackArgs
  match ← t.lookup this.hcode this.terms with
  | some _ => some (false, t)
  | none =>
    if tableCard = t.count then
      if S.isBetter maximize optArgIndex this.terms (t.args t.last) then
        let t ← t.replaceLast this.hcode this.terms
        let t ← t.repositionLastTabledAnswer (S.isBetter maximize optArgIndex) t.last
        some (true, { t with revised := true })
      else some (false, t)
    else
      let t' := t.pushRecord this.hcode this.terms
      let t' ← t'.insertTabledAnswer (S.isBetter maximize optArgIndex) t.top
      let t' := { t' with count := t'.count + 1 }
      let t' ← t'.expandIf (t'.count > t'.chains.size) malloc
      some (true, { t' with revised := true })

/-! ## The list -/

variable {better : List TabledTerm → List TabledTerm → Bool} {t : AnswerTable} {l : List ℕ} {a : ℕ}

def betterRec (better : List TabledTerm → List TabledTerm → Bool) (t : AnswerTable) (x y : ℕ) : Prop :=
  better (t.args x) (t.args y) = true

instance (better : List TabledTerm → List TabledTerm → Bool) (t : AnswerTable) : DecidableRel (betterRec better t) :=
  fun _ _ => inferInstanceAs (Decidable (_ = true))

theorem orderedInsert_cons_of_not {r : ℕ → ℕ → Prop} [DecidableRel r] {b : ℕ} (h : ¬r a b) (l : List ℕ) :
    (b :: l).orderedInsert r a =
      (b :: l.takeWhile fun c => !decide (r a c)) ++ a :: l.dropWhile fun c => !decide (r a c) := by
  rw [orderedInsert_of_not_le _ _ h, orderedInsert_eq_take_drop]
  simp

theorem exists_first (hchain : Seg t.nextInTable (some t.first) l none) : ∃ rest, l = t.first :: rest := by
  cases l with
  | nil => cases hchain
  | cons b rest => exact ⟨rest, by rw [Option.some.inj hchain.1]⟩

theorem insertTabledAnswer_eq (hchain : Seg t.nextInTable (some t.first) l none) (hlast : l.getLast? = some t.last)
    (ha : a ∉ l) (hfuel : l.length ≤ t.top) :
    ∃ next first last, t.insertTabledAnswer better a = some (t.setLinks next first last) ∧
      Seg next (some first) (l.orderedInsert (betterRec better t) a) none ∧
      (l.orderedInsert (betterRec better t) a).getLast? = some last := by
  obtain ⟨rest, rfl⟩ := exists_first hchain
  have hnodup := (seg_none_iff.1 hchain).nodup
  by_cases hfirst : better (t.args a) (t.args t.first) = true
  · rw [insertTabledAnswer, if_pos hfirst, orderedInsert_cons_of_le _ _ (show betterRec better t a t.first from hfirst)]
    refine ⟨_, _, _, rfl, ⟨rfl, ?_⟩, ?_⟩
    · rw [update_self]
      exact hchain.update ha
    · rw [List.getLast?_cons_cons, hlast]
  · rw [insertTabledAnswer, if_neg hfirst, orderedInsert_cons_of_not (show ¬betterRec better t a t.first from hfirst)]
    have hgo : (fun answer => !better (t.args a) (t.args answer)) = fun c => !decide (betterRec better t a c) := by
      funext c
      exact congrArg _ Bool.decide_eq_true.symm
    rw [hgo]
    set go : ℕ → Bool := fun c => !decide (betterRec better t a c) with hgodef
    obtain ⟨init, prev, hinit, hadvance, hpre, hprev, hpost⟩ := advance_takeWhile go hchain hfuel
    rw [← takeWhile_append_dropWhile (p := go) (l := rest), ← cons_append, hinit] at hnodup ha hlast
    rw [hinit, hadvance]
    obtain ⟨hpre', hpost', hdisj⟩ := nodup_append.1 hnodup
    simp only [mem_append, mem_singleton, not_or] at ha
    have hprevInit : prev ∉ init := fun hmem =>
      (nodup_append.1 hpre').2.2 prev hmem prev (mem_singleton_self _) rfl
    have hprevPost : prev ∉ rest.dropWhile go := fun hmem => hdisj prev (by simp) prev hmem rfl
    have hchain' : ∀ k, k = (rest.dropWhile go).head? →
        Seg (update (update t.nextInTable prev (some a)) a k) (some t.first)
          (init ++ [prev] ++ a :: rest.dropWhile go) none := by
      rintro k rfl
      refine seg_append.2 ⟨some a, seg_concat.2 ⟨(hpre.update hprevInit).update ha.1.1, ?_⟩, rfl, ?_⟩
      · rw [update_of_ne (Ne.symm ha.1.2), update_self]
      · rw [update_self]
        exact (hpost.update hprevPost).update ha.2
    cases hdrop : rest.dropWhile go with
    | nil =>
      rw [hdrop] at hchain'
      refine ⟨_, _, _, rfl, hchain' none rfl, ?_⟩
      rw [List.getLast?_concat]
    | cons b post =>
      rw [hdrop] at hchain' hlast
      refine ⟨_, _, _, rfl, hchain' (some b) rfl, ?_⟩
      simpa [List.getLast?_append] using hlast

theorem resetLastTabledAnswer_eq {next : ℕ → Option ℕ} {first last last' b : ℕ} {rest : List ℕ}
    (hseg : Seg next (some b) (b :: rest) (some last)) (hne : ∀ c ∈ rest, c ≠ last) (hfuel : rest.length < t.top) :
    ∃ init z, b :: rest = init ++ [z] ∧ (t.setLinks next first last').resetLastTabledAnswer b last =
      some (t.setLinks (update next z none) first z) := by
  refine ⟨_, _, (dropLast_append_getLast (cons_ne_nil b rest)).symm, ?_⟩
  have hadvance : advance (fun answer => answer != last) next t.top b = _ :=
    advance_eq hseg.2 (fun c hc => bne_iff_ne.2 (hne c hc))
      (fun c hc => by rw [← Option.some.inj hc, bne_self_eq_false]) hfuel
  rw [resetLastTabledAnswer]
  change (match advance (fun answer => answer != last) next t.top b with
    | some (prev, some _) => some ((t.setLinks next first last').setLinks (update next prev none) first prev)
    | _ => none) = _
  rw [hadvance]
  rfl

theorem takeWhile_concat {go : ℕ → Bool} {last : ℕ} {rest : List ℕ} (hne : ∀ c ∈ rest, c ≠ last) :
    (rest ++ [last]).takeWhile (fun c => c != last && go c) = rest.takeWhile go ∧
      (rest ++ [last]).dropWhile (fun c => c != last && go c) = rest.dropWhile go ++ [last] := by
  induction rest with
  | nil => simp
  | cons c rest ih =>
    rw [forall_mem_cons] at hne
    have hc : (c != last) = true := bne_iff_ne.2 hne.1
    cases hgo : go c with
    | true => simp [hc, hgo, ih hne.2]
    | false => simp [hc, hgo]

/-- The last record, which holds a better answer now, goes in front of the first worse answer. -/
theorem repositionLastTabledAnswer_eq {init : List ℕ} (hinit : init ≠ [])
    (hchain : Seg t.nextInTable (some t.first) (init ++ [t.last]) none) (hfuel : (init ++ [t.last]).length ≤ t.top) :
    ∃ next first last, t.repositionLastTabledAnswer better t.last = some (t.setLinks next first last) ∧
      Seg next (some first) (init.orderedInsert (betterRec better t) t.last) none ∧
      (init.orderedInsert (betterRec better t) t.last).getLast? = some last := by
  obtain ⟨rest, rfl⟩ : ∃ rest, init = t.first :: rest := by
    cases init with
    | nil => exact absurd rfl hinit
    | cons b rest => exact ⟨rest, by rw [Option.some.inj hchain.1]⟩
  have hnodup := (seg_none_iff.1 hchain).nodup
  have hlastNot : t.last ∉ t.first :: rest := fun hmem =>
    (nodup_append.1 hnodup).2.2 _ hmem _ (mem_singleton_self _) rfl
  have hne : ∀ c ∈ rest, c ≠ t.last := fun c hc heq => hlastNot (heq ▸ mem_cons_of_mem _ hc)
  have hseg := (seg_concat.1 hchain).1
  rw [length_append, length_singleton, length_cons] at hfuel
  by_cases hfirst : better (t.args t.last) (t.args t.first) = true
  · -- in front of all others
    rw [repositionLastTabledAnswer, if_pos hfirst,
      orderedInsert_cons_of_le _ _ (show betterRec better t t.last t.first from hfirst)]
    obtain ⟨pre, z, hz, hreset⟩ :=
      @resetLastTabledAnswer_eq t (update t.nextInTable t.last (some t.first)) t.last t.last t.last t.first rest
        (hseg.update hlastNot) hne (by omega)
    rw [hz] at hseg hlastNot hnodup ⊢
    rw [mem_append, mem_singleton, not_or] at hlastNot
    have hzpre : z ∉ pre := fun hmem =>
      (nodup_append.1 (nodup_append.1 hnodup).1).2.2 z hmem z (mem_singleton_self z) rfl
    refine ⟨_, _, _, hreset, ⟨rfl, ?_⟩, ?_⟩
    · rw [update_of_ne hlastNot.2, update_self]
      exact seg_concat.2 ⟨((seg_concat.1 hseg).1.update hlastNot.1).update hzpre, update_self ..⟩
    · rw [← cons_append, List.getLast?_concat]
  · rw [repositionLastTabledAnswer, if_neg hfirst,
      orderedInsert_cons_of_not (show ¬betterRec better t t.last t.first from hfirst)]
    have hgo : (fun answer => answer != t.last && !better (t.args t.last) (t.args answer)) =
        fun c => c != t.last && !decide (betterRec better t t.last c) := by
      funext c
      exact congrArg _ (congrArg _ Bool.decide_eq_true.symm)
    rw [hgo]
    set go : ℕ → Bool := fun c => !decide (betterRec better t t.last c) with hgodef
    obtain ⟨htake, hdrop⟩ := @takeWhile_concat go t.last rest hne
    have hlen : (rest ++ [t.last]).length < t.top := by
      rw [length_append, length_singleton]
      omega
    have hwalk : Seg t.nextInTable (some t.first) (t.first :: (rest ++ [t.last])) none := hchain
    obtain ⟨pre, prev, hpre, hadvance, hsegPre, hprev, hpost⟩ :=
      advance_takeWhile (fun c => c != t.last && go c) hwalk hlen
    rw [htake] at hpre
    rw [hdrop] at hadvance hprev hpost
    rw [hadvance, hpre]
    have hcut : t.first :: rest = pre ++ [prev] ++ rest.dropWhile go := by
      rw [← hpre, cons_append, takeWhile_append_dropWhile]
    cases hdw : rest.dropWhile go with
    | nil =>
      -- the walk came to the last record itself
      rw [hdw, append_nil] at hcut
      rw [hdw] at hadvance
      refine ⟨t.nextInTable, t.first, t.last, ?_, ?_, ?_⟩
      · simp only [nil_append, List.head?_cons, ne_eq, not_true_eq_false, if_false]
        rfl
      · rw [← hcut]
        exact hchain
      · rw [List.getLast?_concat]
    | cons q post =>
      rw [hdw] at hprev hpost hcut
      have hq : Seg t.nextInTable (some q) (q :: post) (some t.last) := (seg_concat.1 hpost).1
      rw [hcut, nodup_append, nodup_append] at hnodup
      obtain ⟨⟨hnodupPre, hnodupPost, hdisj⟩, -, -⟩ := hnodup
      rw [hcut] at hlastNot
      simp only [mem_append, mem_singleton, not_or] at hlastNot
      have hprevPre : prev ∉ pre := fun hmem =>
        (nodup_append.1 hnodupPre).2.2 prev hmem prev (mem_singleton_self prev) rfl
      have hprevPost : prev ∉ q :: post := fun hmem => hdisj prev (by simp) prev hmem rfl
      have hq' := (hq.update (k := some t.last) hprevPost).update (k := some q) hlastNot.2
      have hpost' : post.length < t.top := by
        have := congrArg List.length hcut
        simp only [length_cons, length_append] at this
        omega
      obtain ⟨pre', z, hz, hreset⟩ := @resetLastTabledAnswer_eq t _ t.first t.last t.last q post hq'
        (fun c hc heq => hlastNot.2 (heq ▸ mem_cons_of_mem q hc)) hpost'
      have hqlast : q ≠ t.last := fun heq => hlastNot.2 (heq ▸ mem_cons_self ..)
      refine ⟨update (update (update t.nextInTable prev (some t.last)) t.last (some q)) z none, t.first, z, ?_, ?_, ?_⟩
      · simp only [cons_append, List.head?_cons, ne_eq, hqlast, not_false_eq_true, if_true]
        exact hreset
      · rw [hz] at hq' hlastNot hprevPost hnodupPost hdisj ⊢
        simp only [mem_append, mem_singleton, not_or] at hlastNot hprevPost
        have hzpre : z ∉ pre := fun hmem => hdisj z (by simp [hmem]) z (by simp) rfl
        have hzpre' : z ∉ pre' := fun hmem =>
          (nodup_append.1 hnodupPost).2.2 z hmem z (mem_singleton_self z) rfl
        refine seg_append.2 ⟨some t.last, seg_concat.2 ⟨?_, ?_⟩, rfl, ?_⟩
        · exact ((hsegPre.update hprevPre).update hlastNot.1.1).update hzpre
        · rw [update_of_ne hprevPost.2, update_of_ne (Ne.symm hlastNot.1.2), update_self]
        · rw [update_of_ne hlastNot.2.2, update_self]
          exact seg_concat.2 ⟨(seg_concat.1 hq').1.update hzpre', update_self ..⟩
      · rw [hz, ← cons_append, ← append_assoc, List.getLast?_concat]

/-! ## One more answer -/

theorem map_orderedInsert_args (l : List ℕ) (a : ℕ) : (l.orderedInsert (betterRec better t) a).map t.args =
      (l.map t.args).orderedInsert (fun x y => better x y = true) (t.args a) :=
  map_orderedInsert _ _ t.args l a (fun _ _ => Iff.rfl) (fun _ _ => Iff.rfl)

theorem Lists.replaceLast {init : List ℕ} (h : t.Lists (init ++ [t.last])) (args : List TabledTerm) :
    ∃ chains : Buckets ℕ, t.replaceLast (hashvalOfTabledAnswer args) args =
        some { t with args := update t.args t.last args, chains := chains } ∧
      chains.Holds (fun a => hashvalOfTabledAnswer (update t.args t.last args a)) (init ++ [t.last]) := by
  have hmem : t.last ∈ init ++ [t.last] := mem_append_right _ (mem_singleton_self _)
  obtain ⟨p, hp, hholds, hsize⟩ := h.holds.unlink hmem h.length_le
  have hholds' : (t.chains.write p (t.chains.next t.last)).Holds
      (fun a => hashvalOfTabledAnswer (update t.args t.last args a))
      ((init ++ [t.last]).filter (· ≠ t.last)) := hholds.congr_hash fun a ha => by
    rw [update_of_ne (of_decide_eq_true (mem_filter.1 ha).2)]
    rfl
  have hpush := hholds'.push (a := t.last) (by simp)
  rw [update_self] at hpush
  refine ⟨_, ?_, hpush.congr fun a => ?_⟩
  · rw [AnswerTable.replaceLast, removeAnswerFromAnswerTable, hp]
    rfl
  · simp only [mem_cons, mem_filter, decide_eq_true_eq]
    by_cases ha : a = t.last
    · simp [ha]
    · simp [ha]

/-- A better answer takes the place of the last one, and its record goes where it belongs. -/
theorem Lists.replaced {init : List ℕ} (h : t.Lists (init ++ [t.last])) (hinit : init ≠ []) (args : List TabledTerm) :
    ∃ t₁ t₂ l', t.replaceLast (hashvalOfTabledAnswer args) args = some t₁ ∧
      t₁.repositionLastTabledAnswer better t₁.last = some t₂ ∧ t₂.Lists l' ∧
      l'.map t₂.args = (init.map t.args).orderedInsert (fun x y => better x y = true) args := by
  obtain ⟨chains, hreplace, hholds⟩ := h.replaceLast args
  let t₁ : AnswerTable := { t with args := update t.args t.last args, chains := chains }
  obtain ⟨next, first, last, hreposition, hchain, hlast⟩ :=
    @repositionLastTabledAnswer_eq better t₁ init hinit h.chain h.length_le
  have hlastNot : t.last ∉ init := fun hmem =>
    (nodup_append.1 h.nodup).2.2 _ hmem _ (mem_singleton_self _) rfl
  have hmem : ∀ a, a ∈ init.orderedInsert (betterRec better t₁) t.last ↔ a ∈ init ++ [t.last] := fun a => by
    rw [mem_orderedInsert, mem_append, mem_singleton, or_comm]
  refine ⟨t₁, _, _, hreplace, hreposition, ⟨hchain, hlast, ?_, fun a ha => h.lt_top a ((hmem a).1 ha),
    hholds.congr hmem⟩, ?_⟩
  · rw [orderedInsert_length]
    exact h.count_eq.trans (by rw [length_append, length_singleton])
  · have hargs : init.map t₁.args = init.map t.args :=
      map_congr_left fun a ha => update_of_ne (ne_of_mem_of_not_mem ha hlastNot) ..
    have hmap := @map_orderedInsert_args better t₁ init t.last
    rw [hargs, show t₁.args t.last = args from update_self ..] at hmap
    exact hmap

theorem Lists.inserted (h : t.Lists l) (args : List TabledTerm) :
    ∃ t' l', (t.pushRecord (hashvalOfTabledAnswer args) args).insertTabledAnswer better t.top = some t' ∧
      ({ t' with count := t'.count + 1 } : AnswerTable).Lists l' ∧
      l'.map t'.args = (l.map t.args).orderedInsert (fun x y => better x y = true) args := by
  obtain ⟨next, first, last, hinsert, hchain, hlast⟩ :=
    @insertTabledAnswer_eq better (t.pushRecord (hashvalOfTabledAnswer args) args) l t.top h.chain h.last_eq
      h.top_notMem (Nat.le_succ_of_le h.length_le)
  refine ⟨_, _, hinsert, ⟨hchain, hlast, ?_, fun a ha => ?_, (h.holds_pushRecord args).congr fun a => by simp⟩, ?_⟩
  · rw [orderedInsert_length]
    exact congrArg (· + 1) h.count_eq
  · rcases (mem_orderedInsert _).1 ha with rfl | ha
    · exact Nat.lt_succ_self _
    · exact Nat.lt_succ_of_lt (h.lt_top a ha)
  · have hmap := @map_orderedInsert_args better (t.pushRecord (hashvalOfTabledAnswer args) args) l t.top
    rw [map_args_pushRecord _ _ h.lt_top, args_pushRecord_top] at hmap
    exact hmap

theorem Lists.getLast?_map (h : t.Lists l) : (l.map t.args).getLast? = some (t.args t.last) := by
  rw [List.getLast?_map, h.last_eq]
  rfl

/-- The list of answers becomes what the `tableCard` best of them are, and the subgoal is marked if it changes. -/
theorem Lists.addTableOptimalAnswer (S : Standard) (h : t.Lists l) (hnodup : (l.map t.args).Nodup)
    {answer : List HeapTerm} (hmeets : t.Meets (answerTerms answer)) (optArgIndex : ℕ) (maximize : Bool)
    {tableCard : ℕ} (hcard : 2 ≤ tableCard) (malloc : Bool) :
    ∃ r t' l', t.addTableOptimalAnswer S answer optArgIndex maximize tableCard malloc = some (r, t') ∧ t'.Lists l' ∧
      l'.map t'.args = keepBest (S.isBetter maximize optArgIndex) tableCard (l.map t.args) (answerTerms answer) ∧
      (if r then t'.revised = true else t' = t) := by
  have hlookup := h.lookup_eq hnodup hmeets
  rw [keepBest, AnswerTable.addTableOptimalAnswer, ← answerTerms, answerHcode_eq, hlookup, length_map,
    ← h.count_eq, h.getLast?_map, Option.any_some]
  by_cases hmem : answerTerms answer ∈ l.map t.args
  · obtain ⟨a, ha, hargs⟩ := mem_map.1 hmem
    obtain ⟨b, hb⟩ : ∃ b, l.find? (fun a => answerTerms answer = t.args a) = some b := by
      rw [← Option.isSome_iff_exists, List.find?_isSome]
      exact ⟨a, ha, decide_eq_true hargs.symm⟩
    rw [hb, if_pos hmem]
    exact ⟨false, t, l, rfl, h, rfl, rfl⟩
  · have hnone : l.find? (fun a => answerTerms answer = t.args a) = none := by
      rw [List.find?_eq_none]
      intro a ha heq
      exact hmem (mem_map.2 ⟨a, ha, (of_decide_eq_true heq).symm⟩)
    rw [hnone, if_neg hmem]
    by_cases hfull : t.count = tableCard
    · rw [if_pos hfull]
      by_cases hbetter : S.isBetter maximize optArgIndex (answerTerms answer) (t.args t.last) = true
      · obtain ⟨init, rfl⟩ := h.exists_concat
        have hinit : init ≠ [] := fun hnil => by
          have := h.count_eq
          rw [hnil, length_append, length_singleton, length_nil] at this
          omega
        obtain ⟨t₁, t₂, l', hreplace, hreposition, hlists, hmap⟩ :=
          @Lists.replaced (S.isBetter maximize optArgIndex) t init h hinit (answerTerms answer)
        refine ⟨true, _, l', ?_, hlists.markRevised, ?_, rfl⟩
        · simp only [Option.bind_eq_bind, Option.bind_some, if_pos hfull.symm, if_pos hbetter, hreplace, hreposition]
        · rw [if_pos hbetter, List.map_append, map_singleton, dropLast_concat]
          exact hmap
      · refine ⟨false, t, l, ?_, h, (if_neg hbetter).symm, rfl⟩
        simp only [Option.bind_eq_bind, Option.bind_some, if_pos hfull.symm, if_neg hbetter]
    · rw [if_neg hfull]
      obtain ⟨t', l', hinsert, hlists, hmap⟩ :=
        @Lists.inserted (S.isBetter maximize optArgIndex) t l h (answerTerms answer)
      obtain ⟨chains, hchains, hlists'⟩ := hlists.expandIf (t'.count + 1 > t'.chains.size) malloc
      refine ⟨true, _, l', ?_, hlists'.markRevised, hmap, rfl⟩
      simp only [Option.bind_eq_bind, Option.bind_some, if_neg (Ne.symm hfull), hinsert, hchains]

end AnswerTable

open Variants

/-! ## The best answers of a subgoal -/

/-- The operands `OptArg` and `Card` of `table_mode`. -/
structure OptimalMode where
  optArgIndex : ℕ
  maximize : Bool
  tableCard : ℕ
  two_le_tableCard : 2 ≤ tableCard

def OptimalMode.better (m : OptimalMode) (S : Standard) : List TabledTerm → List TabledTerm → Bool :=
  S.isBetter m.maximize m.optArgIndex

/-- The first answer is in the table when the second one comes. Between two answers the flag of the subgoal may be
taken back for another iteration. -/
inductive OptimalRun (S : Standard) (m : OptimalMode) (ok : List (List HeapTerm) → AnswerTable → List HeapTerm → Prop) :
    List (List HeapTerm) → AnswerTable → Prop
  | first (answer : List HeapTerm) : OptimalRun S m ok [answer] (.allocateAnswerTable (answerTerms answer))
  | iterate {seen : List (List HeapTerm)} {t : AnswerTable} (h : OptimalRun S m ok seen t) :
      OptimalRun S m ok seen { t with revised := false }
  | add {seen : List (List HeapTerm)} {t t' : AnswerTable} {r : Bool} (h : OptimalRun S m ok seen t)
      (answer : List HeapTerm) (malloc : Bool) (hok : ok seen t answer)
      (hadd : t.addTableOptimalAnswer S answer m.optArgIndex m.maximize m.tableCard malloc = some (r, t')) :
      OptimalRun S m ok (seen ++ [answer]) t'

/-- The next answer can be ranked among those seen, and compared with the records of its bucket. -/
structure Ranked (S : Standard) (m : OptimalMode) (seen : List (List HeapTerm)) (t : AnswerTable)
    (answer : List HeapTerm) : Prop where
  order : StrictWeakOn (m.better S) {x | x ∈ (seen ++ [answer]).map answerTerms}
  meets : t.Meets (answerTerms answer)

/-- The table lists the best answers seen, and its parts agree. -/
structure Best (S : Standard) (m : OptimalMode) (seen : List (List HeapTerm)) (t : AnswerTable) : Prop where
  lists : t.Lists t.records
  best : IsBest (m.better S) m.tableCard (seen.map answerTerms) t.answers
  eq_of_variant : ∀ a ∈ t.records, ∀ b ∈ t.records, ∀ x y, t.args a = answerTerms x → t.args b = answerTerms y →
    Variant (HeapTerm.trees x) (HeapTerm.trees y) → a = b

namespace Best

variable {S : Standard} {m : OptimalMode} {seen : List (List HeapTerm)} {t : AnswerTable}

theorem of_lists {l : List ℕ} (hlists : t.Lists l)
    (hbest : IsBest (m.better S) m.tableCard (seen.map answerTerms) (l.map t.args)) : Best S m seen t := by
  have hrecords := hlists.records_eq
  refine ⟨hrecords.symm ▸ hlists, ?_, fun a ha b hb x y hx hy hxy => ?_⟩
  · rw [AnswerTable.answers, hrecords]
    exact hbest
  · rw [hrecords] at ha hb
    apply inj_on_of_nodup_map hbest.nodup ha hb
    rw [hx, hy, answerTerms_eq_iff]
    exact hxy

theorem first (S : Standard) (m : OptimalMode) (answer : List HeapTerm) :
    Best S m [answer] (.allocateAnswerTable (answerTerms answer)) := by
  apply of_lists (AnswerTable.lists_allocate _)
  have hk := m.two_le_tableCard
  refine ⟨fun a ha => ha, nodup_singleton _, pairwise_singleton _ _, ?_, fun d hd hdl => absurd hd hdl⟩
  exact Nat.le_of_succ_le hk

theorem iterate (h : Best S m seen t) : Best S m seen { t with revised := false } := by
  refine of_lists (l := t.records) ?_ h.best
  exact ⟨h.lists.chain, h.lists.last_eq, h.lists.count_eq, h.lists.lt_top, h.lists.holds⟩

theorem add (h : Best S m seen t) {answer : List HeapTerm} (hranked : Ranked S m seen t answer) (malloc : Bool) :
    ∃ r t', t.addTableOptimalAnswer S answer m.optArgIndex m.maximize m.tableCard malloc = some (r, t') ∧
      Best S m (seen ++ [answer]) t' ∧ (t'.answers ≠ t.answers → t'.revised = true) := by
  obtain ⟨r, t', l', hadd, hlists, hanswers, hrevised⟩ := h.lists.addTableOptimalAnswer S h.best.nodup hranked.meets
    m.optArgIndex m.maximize m.two_le_tableCard malloc
  have horder := hranked.order
  rw [List.map_append, map_singleton] at horder
  have hbest := h.best.keepBest (Nat.zero_lt_of_lt m.two_le_tableCard) horder
  refine ⟨r, t', hadd, of_lists hlists ?_, fun hne => ?_⟩
  · rw [List.map_append, map_singleton, hanswers]
    exact hbest
  · cases r with
    | true => exact hrevised
    | false => exact absurd (congrArg AnswerTable.answers hrevised) hne

end Best

/-- At every point of a run the table lists the best answers seen, and the next call keeps it so. -/
theorem optimalRun_best {S : Standard} {m : OptimalMode} {seen : List (List HeapTerm)} {t : AnswerTable}
    (h : OptimalRun S m (Ranked S m) seen t) :
    Best S m seen t ∧ ∀ answer, Ranked S m seen t answer → ∀ malloc, ∃ r t',
      t.addTableOptimalAnswer S answer m.optArgIndex m.maximize m.tableCard malloc = some (r, t') ∧
        Best S m (seen ++ [answer]) t' ∧ (t'.answers ≠ t.answers → t'.revised = true) := by
  have hbest : Best S m seen t := by
    induction h with
    | first answer => exact Best.first S m answer
    | iterate _ ih => exact ih.iterate
    | add _ answer malloc hranked hadd ih =>
      obtain ⟨r, t', hadd', hbest, -⟩ := ih.add hranked malloc
      rw [hadd, Option.some.injEq, Prod.mk.injEq] at hadd'
      rw [hadd'.2]
      exact hbest
  exact ⟨hbest, fun answer hranked malloc => hbest.add hranked malloc⟩

def OptimalMode.optVal (m : OptimalMode) (x : List TabledTerm) : ℤ :=
  match x.getD m.optArgIndex (.var 0) with
  | .atm w => intval w
  | _ => 0

theorem OptimalMode.better_of_isInt (m : OptimalMode) (S : Standard) {x y : List TabledTerm} {v w : ℕ}
    (hx : x.getD m.optArgIndex (.var 0) = .atm v) (hv : isInt v = true) (hy : y.getD m.optArgIndex (.var 0) = .atm w)
    (hw : isInt w = true) :
    m.better S x y = if m.maximize then decide (m.optVal x > m.optVal y) else decide (m.optVal x < m.optVal y) := by
  rw [better, Standard.isBetter, Standard.isBiggerTabledAnswer, Standard.isSmallerTabledAnswer, optVal, optVal, hx, hy,
    Standard.tableAnsIsGt, Standard.tableAnsIsLt, hv, hw]
  rfl

theorem strictWeakOn_of_isInt (S : Standard) (m : OptimalMode) {s : Set (List TabledTerm)}
    (hs : ∀ x ∈ s, ∃ w, x.getD m.optArgIndex (.var 0) = .atm w ∧ isInt w = true) : StrictWeakOn (m.better S) s := by
  have hbetter : ∀ x ∈ s, ∀ y ∈ s, m.better S x y =
      if m.maximize then decide (m.optVal x > m.optVal y) else decide (m.optVal x < m.optVal y) := fun x hx y hy => by
    obtain ⟨v, hxv, hv⟩ := hs x hx
    obtain ⟨w, hyw, hw⟩ := hs y hy
    exact m.better_of_isInt S hxv hv hyw hw
  refine ⟨fun x hx y hy hxy => ?_, fun x hx y hy z hz hxz => ?_⟩
  · rw [hbetter x hx y hy] at hxy
    rw [hbetter y hy x hx]
    split_ifs at hxy ⊢ <;> simp only [decide_eq_true_eq, decide_eq_false_iff_not] at hxy ⊢ <;> omega
  · rw [hbetter x hx z hz] at hxz
    rw [hbetter x hx y hy, hbetter y hy z hz]
    split_ifs at hxz ⊢ <;> simp only [decide_eq_true_eq] at hxz ⊢ <;> omega

/-! ## Two runs -/

def plainStandard : Standard where
  name := fun _ => []
  floatPsc := 0
  bigintPsc := 0
  Double := ℤ
  ofInt := id
  ofBigint := fun _ => 0
  ofWords := fun _ _ _ => 0
  ltDouble := fun f g => decide (f < g)
  eqDouble := fun f g => decide (f = g)
  wild := fun _ _ => 0

/-- Two answers at most, those with the largest second argument. -/
def maxSecond : OptimalMode := ⟨1, true, 2, le_rfl⟩

theorem optimalRun_best_integers : ∃ t, OptimalRun plainStandard maxSecond (Ranked plainStandard maxSecond)
      [[.atm 10, .atm (intTag + 12)], [.atm 18, .atm (intTag + 20)]] t ∧
    Best plainStandard maxSecond [[.atm 10, .atm (intTag + 12)], [.atm 18, .atm (intTag + 20)]] t := by
  have hfirst : OptimalRun plainStandard maxSecond (Ranked plainStandard maxSecond) _ _ :=
    .first [.atm 10, .atm (intTag + 12)]
  have hranked : Ranked plainStandard maxSecond [[.atm 10, .atm (intTag + 12)]]
      (.allocateAnswerTable (answerTerms [.atm 10, .atm (intTag + 12)])) [.atm 18, .atm (intTag + 20)] := by
    refine ⟨strictWeakOn_of_isInt _ _ fun x hx => ?_, by decide +kernel⟩
    have hx' : x ∈ [[.atm 10, .atm (intTag + 12)], [.atm 18, .atm (intTag + 20)]] := hx
    rw [mem_pair] at hx'
    rcases hx' with rfl | rfl
    · exact ⟨_, rfl, by decide⟩
    · exact ⟨_, rfl, by decide⟩
  obtain ⟨r, t, hadd, -⟩ := (optimalRun_best hfirst).2 _ hranked true
  have hrun := hfirst.add _ true hranked hadd
  exact ⟨t, hrun, (optimalRun_best hrun).1⟩

/-- The answers `(a,X)`, `(b,Y)` and `(c,Z)`, whose optimized arguments are variables. -/
def unboundAnswers : List (List HeapTerm) := [[.atm 10, .var 0], [.atm 18, .var 1], [.atm 26, .var 2]]

/-- Every unbound answer counts as better than the others, so that the last two remain; whatever the order, these terms
tie, and the first two would have to. -/
theorem optimalRun_unbound : ∃ t, OptimalRun plainStandard maxSecond (fun _ _ _ => True) unboundAnswers t ∧
    t.answers = [[.atm 26, .var 0], [.atm 18, .var 0]] ∧
    ∀ better : TabledTerm → TabledTerm → Bool, (∀ x, better x x = false) →
      ¬IsBest (fun x y => better (x.getD 1 (.var 0)) (y.getD 1 (.var 0))) 2 (unboundAnswers.map answerTerms)
        t.answers := by
  have hadd : (((AnswerTable.allocateAnswerTable (answerTerms [.atm 10, .var 0])).addTableOptimalAnswer plainStandard
        [.atm 18, .var 1] maxSecond.optArgIndex maxSecond.maximize maxSecond.tableCard true).bind
      fun p : Bool × AnswerTable => p.2.addTableOptimalAnswer plainStandard [.atm 26, .var 2] maxSecond.optArgIndex
        maxSecond.maximize maxSecond.tableCard true).map (fun p => p.2.answers) =
      some [[.atm 26, .var 0], [.atm 18, .var 0]] := by
    decide +kernel
  obtain ⟨⟨r₃, t₃⟩, hbind, hanswers⟩ := Option.map_eq_some_iff.1 hadd
  obtain ⟨⟨r₂, t₂⟩, h₂, h₃⟩ := Option.bind_eq_some_iff.1 hbind
  have hrun : OptimalRun plainStandard maxSecond (fun _ _ _ => True) _ t₃ :=
    ((OptimalRun.first _).add _ true trivial h₂).add _ true trivial h₃
  refine ⟨t₃, hrun, hanswers, fun better hirrefl hbest => ?_⟩
  have hseen : unboundAnswers.map answerTerms = [[.atm 10, .var 0], [.atm 18, .var 0], [.atm 26, .var 0]] := by
    decide
  have hfirst := (hbest.best [.atm 10, .var 0] (by rw [hseen]; decide) (by rw [hanswers]; decide)).2
    [.atm 26, .var 0] (by rw [hanswers]; decide)
  rw [hseen] at hfirst
  rcases hfirst with h | h
  · exact Bool.false_ne_true ((hirrefl _).symm.trans h)
  · exact absurd h.2 (by decide)

end Picat
