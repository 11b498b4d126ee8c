import Picat.Graph.Kruskal
import Picat.Lib.Loops
import Picat.Lib.GraphSearch

/-!
# Shortest paths by a tabled predicate

`tabled_shortest_path` has the table mode `(+,+,-,-,nt)` : for each pair of vertices the first answer is kept, and no
argument is optimized.

* `shortestPath_correct_iff` : the graphs for which the answer is right whatever the order of the edges.
-/

namespace Picat.ShortestPath

open Mst Function List

/-! ## The program -/

section
variable {V W : Type} [DecidableEq V]

def edgesToAdjacentList : List (Mst.Edge V W) → PMap V (List (V × W)) → PMap V (List (V × W))
  | [], ADList => ADList
  | e :: Graph, ADList =>
    let Neibs := (ADList.lookup e.v1).getD []
    edgesToAdjacentList Graph (ADList.insert e.v1 ((e.v2, e.w) :: Neibs))

/-- `ADList.get(V1,[])` -/
def getNeibs (ADList : PMap V (List (V × W))) (v1 : V) : List (V × W) := (ADList.lookup v1).getD []

/-- The calls with one and the same target: whether a call has been evaluated in this round or is complete, and the answer
that it has. `clock` counts the evaluations. -/
structure Table (V W : Type) where
  evaluated : V → Bool
  answer : V → Option (List (Mst.Edge V W) × W)
  clock : ℕ

/-- `table_produce` with the cardinality 1 and no argument to optimize: the first answer stays. -/
def Table.addAnswer (t : Table V W) (v1 : V) (answer : List (Mst.Edge V W) × W) : Table V W :=
  match t.answer v1 with
  | some _ => t
  | none => { t with answer := update t.answer v1 (some answer) }

variable [AddMonoid W]

/-- The rest of the second rule, with the answer of the call for `Next` if there is one. -/
def extendAnswer (v1 : V) (neib : V × W) (t : Table V W) : Table V W :=
  match t.answer neib.1 with
  | none => t
  | some (Path1, Cost1) => t.addAnswer v1 (⟨v1, neib.1, neib.2⟩ :: Path1, Cost1 + neib.2)

/-- One alternative of `member((Next,W),Neibs)`. -/
def tryNeib (call : V → Table V W → Option (Table V W)) (v1 : V) (t : Table V W) (neib : V × W) : Option (Table V W) := do
  let t ← call neib.1 t
  return extendAnswer v1 neib t

/-- The rules of `tabled_shortest_path`. -/
def tryRules (ADList : PMap V (List (V × W))) (V2 : V) (call : V → Table V W → Option (Table V W)) (v1 : V)
    (t : Table V W) : Option (Table V W) :=
  if v1 = V2 then some (t.addAnswer v1 ([], 0))
  else (getNeibs ADList v1).foldlM (tryNeib call v1) t

/-- The rules once more, after some of the calls have been taken out of this round (`initialize_scc_elms`). -/
def tryAgain (ADList : PMap V (List (V × W))) (V2 : V) (call : V → Table V W → Option (Table V W)) (v1 : V)
    (t : Table V W) (keep : V → Bool) : Option (Table V W) :=
  tryRules ADList V2 call v1 { t with evaluated := fun v => t.evaluated v && keep v }

/-- A call, with the calls that are being evaluated; `iterations` has how often it is iterated, which the components of
the calls decide. -/
def solve (iterations : ℕ → List (V → Bool)) (ADList : PMap V (List (V × W))) (V2 : V) :
    ℕ → List V → V → Table V W → Option (Table V W)
  | 0, _, _, _ => none
  | fuel + 1, active, v1, t =>
    if v1 ∈ active ∨ t.evaluated v1 = true then some t
    else do
      let call := solve iterations ADList V2 fuel (v1 :: active)
      let t₁ ← tryRules ADList V2 call v1 { t with clock := t.clock + 1 }
      let t₂ ← (iterations t.clock).foldlM (tryAgain ADList V2 call v1) t₁
      return { t₂ with evaluated := update t₂.evaluated v1 true }

/-- `tabled_shortest_path`, from an empty table. -/
def tabledShortestPath (iterations : ℕ → List (V → Bool)) (fuel : ℕ) (V1 V2 : V) (ADList : PMap V (List (V × W))) :
    Option (Option (List (Mst.Edge V W) × W)) := do
  let t ← solve iterations ADList V2 fuel [] V1 ⟨fun _ => false, fun _ => none, 0⟩
  return t.answer V1

/-- `shortest_path`. Calls are nested no deeper than there are vertices. -/
def shortestPath (iterations : ℕ → List (V → Bool)) (Graph : List (Mst.Edge V W)) (V1 V2 : V) :
    Option (Option (List (Mst.Edge V W) × W)) :=
  tabledShortestPath iterations (Graph.length + 2) V1 V2 (edgesToAdjacentList Graph ∅)

end

/-! ## The table -/

section
variable {V W : Type}

def graphOf (Graph : List (Mst.Edge V W)) : WGraph V (Mst.Edge V W) W := ⟨fun e => e ∈ Graph, Mst.Edge.v1, Mst.Edge.v2, Mst.Edge.w⟩

def Extends (t t' : Table V W) : Prop := ∀ v a, t.answer v = some a → t'.answer v = some a

variable [AddCommMonoid W]

/-- The answers are simple paths to `V2`, over vertices that have answers themselves. -/
def Sound (Graph : List (Mst.Edge V W)) (V2 : V) (t : Table V W) : Prop :=
  ∀ v p c, t.answer v = some (p, c) → (graphOf Graph).IsSimple V2 v p ∧ c = (graphOf Graph).weight p ∧
    ∀ u ∈ (graphOf Graph).verts v p, t.answer u ≠ none

omit [AddCommMonoid W] in
/-- A call that has been evaluated without an answer has none outside of the calls that are being evaluated; or one of
these has an answer by now. -/
def Quiet (Graph : List (Mst.Edge V W)) (V2 : V) (active : List V) (t : Table V W) : Prop :=
  (∃ v ∈ active, t.answer v ≠ none) ∨
    ∀ v, t.evaluated v = true → t.answer v = none → ¬ (graphOf Graph).Leads active V2 v

/-- What a call for `u` does to the table. -/
structure Solved (Graph : List (Mst.Edge V W)) (V2 : V) (active : List V) (u : V) (t t' : Table V W) : Prop where
  grows : Extends t t'
  frame : ∀ v ∈ active, t'.answer v = t.answer v
  sound : Sound Graph V2 t'
  marked : u ∈ active ∨ t'.evaluated u = true
  quiet : Quiet Graph V2 active t' ∨ t'.answer u ≠ none

/-- What the rules for `u` have done to the table when the successors `done` have been tried. -/
structure Passing (Graph : List (Mst.Edge V W)) (V2 : V) (active : List V) (u : V) (t : Table V W) (done : List (V × W))
    (t' : Table V W) : Prop where
  grows : Extends t t'
  frame : ∀ v ∈ active, t'.answer v = t.answer v
  sound : Sound Graph V2 t'
  quiet : (∃ v ∈ active, t'.answer v ≠ none) ∨ t'.answer u ≠ none ∨
    (∀ v, t'.evaluated v = true → t'.answer v = none → ¬ (graphOf Graph).Leads (u :: active) V2 v) ∧
      ∀ neib ∈ done, ¬ (graphOf Graph).Leads (u :: active) V2 neib.1

end

variable {fuel : ℕ}

section
variable {V W : Type} {Graph : List (Mst.Edge V W)} {V2 u v : V} {t t' t'' : Table V W} {active : List V}
  {a : List (Mst.Edge V W) × W}

theorem Extends.refl (t : Table V W) : Extends t t := fun _ _ h => h

theorem Extends.trans (h : Extends t t') (h' : Extends t' t'') : Extends t t'' := fun v a hv => h' v a (h v a hv)

theorem Extends.ne_none (h : Extends t t') (hv : t.answer v ≠ none) : t'.answer v ≠ none := by
  obtain ⟨a, ha⟩ := Option.ne_none_iff_exists'.1 hv
  rw [h v a ha]
  exact Option.some_ne_none a

variable [DecidableEq V]

theorem addAnswer_of_some (hu : t.answer u ≠ none) : t.addAnswer u a = t := by
  obtain ⟨b, hb⟩ := Option.ne_none_iff_exists'.1 hu
  simp only [Table.addAnswer, hb]

theorem addAnswer_of_none (hu : t.answer u = none) :
    t.addAnswer u a = { t with answer := update t.answer u (some a) } := by
  simp only [Table.addAnswer, hu]

theorem addAnswer_self (hu : t.answer u = none) : (t.addAnswer u a).answer u = some a := by
  rw [addAnswer_of_none hu]
  exact update_self _ _ _

theorem addAnswer_other (hv : v ≠ u) : (t.addAnswer u a).answer v = t.answer v := by
  cases hu : t.answer u with
  | none =>
    rw [addAnswer_of_none hu]
    exact update_of_ne hv _ _
  | some b => rw [addAnswer_of_some (by simp [hu])]

theorem addAnswer_ne_none : (t.addAnswer u a).answer u ≠ none := by
  cases hu : t.answer u with
  | none =>
    rw [addAnswer_of_none hu]
    simp
  | some b =>
    rw [addAnswer_of_some (by simp [hu]), hu]
    simp

theorem extends_addAnswer : Extends t (t.addAnswer u a) := by
  intro v b hv
  by_cases hvu : v = u
  · subst hvu
    rw [addAnswer_of_some (by simp [hv]), hv]
  · rw [addAnswer_other hvu, hv]

variable [AddCommMonoid W]

theorem Sound.addAnswer {p : List (Mst.Edge V W)} {c : W} (h : Sound Graph V2 t) (hp : (graphOf Graph).IsSimple V2 u p)
    (hc : c = (graphOf Graph).weight p)
    (hverts : ∀ v ∈ (graphOf Graph).verts u p, v = u ∨ t.answer v ≠ none) : Sound Graph V2 (t.addAnswer u (p, c)) := by
  cases hu : t.answer u with
  | some b =>
    rw [addAnswer_of_some (by simp [hu])]
    exact h
  | none =>
    intro v q d hv
    have hgrow : Extends t (t.addAnswer u (p, c)) := extends_addAnswer
    by_cases hvu : v = u
    · subst hvu
      rw [addAnswer_of_none hu] at hv
      simp only [update_self, Option.some.injEq, Prod.mk.injEq] at hv
      obtain ⟨rfl, rfl⟩ := hv
      refine ⟨hp, hc, fun w hw => ?_⟩
      rcases hverts w hw with rfl | hw'
      · exact addAnswer_ne_none
      · exact hgrow.ne_none hw'
    · rw [addAnswer_other hvu] at hv
      obtain ⟨hq, hd, hvq⟩ := h v q d hv
      exact ⟨hq, hd, fun w hw => hgrow.ne_none (hvq w hw)⟩

theorem Sound.extendAnswer {neib : V × W} (h : Sound Graph V2 t) (hmem : ⟨u, neib.1, neib.2⟩ ∈ Graph) :
    Sound Graph V2 (extendAnswer u neib t) := by
  unfold Picat.ShortestPath.extendAnswer
  cases hn : t.answer neib.1 with
  | none => exact h
  | some b =>
    obtain ⟨p, c⟩ := b
    obtain ⟨hp, hc, hverts⟩ := h neib.1 p c hn
    by_cases hu : t.answer u = none
    · refine h.addAnswer (WGraph.isSimple_cons.2 ⟨hmem, rfl, hp, fun hin => hverts u hin hu⟩) ?_ fun v hv => ?_
      · rw [WGraph.weight_cons, hc, add_comm]
        rfl
      · rcases mem_cons.1 hv with rfl | hv
        · exact .inl rfl
        · exact .inr (hverts v hv)
    · simp only [addAnswer_of_some hu]
      exact h

theorem extends_extendAnswer (u : V) (neib : V × W) (t : Table V W) : Extends t (extendAnswer u neib t) := by
  unfold extendAnswer
  cases t.answer neib.1 with
  | none => exact Extends.refl t
  | some b => exact extends_addAnswer

theorem extendAnswer_other {neib : V × W} (hv : v ≠ u) : (extendAnswer u neib t).answer v = t.answer v := by
  unfold extendAnswer
  cases t.answer neib.1 with
  | none => rfl
  | some b => exact addAnswer_other hv

/-! ## One call -/

def Neighbours (Graph : List (Mst.Edge V W)) (neibs : List (V × W)) (u : V) : Prop :=
  ∀ neib : V × W, neib ∈ neibs ↔ ⟨u, neib.1, neib.2⟩ ∈ Graph

def CallsSolve (Graph : List (Mst.Edge V W)) (V2 : V) (active : List V) (call : V → Table V W → Option (Table V W)) : Prop :=
  ∀ v t, (∃ e ∈ Graph, e.v2 = v) → Sound Graph V2 t → Quiet Graph V2 active t →
    ∃ t', call v t = some t' ∧ Solved Graph V2 active v t t'

variable {call : V → Table V W → Option (Table V W)} {done : List (V × W)} {neib : V × W}

/-- A successor is tried: its call gives the vertex an answer, or does not lead to `V2` outside of the active calls. -/
theorem Passing.extendAnswer (h : Passing Graph V2 active u t done t') (hu : u ∉ active)
    (hmem : ⟨u, neib.1, neib.2⟩ ∈ Graph) (hs : Solved Graph V2 (u :: active) neib.1 t' t'') :
    Passing Graph V2 active u t (done ++ [neib]) (extendAnswer u neib t'') := by
  have hgrow := extends_extendAnswer u neib t''
  have hframe : ∀ v ∈ active, (Picat.ShortestPath.extendAnswer u neib t'').answer v = t''.answer v := fun v hv =>
    extendAnswer_other fun hvu => hu (hvu ▸ hv)
  refine ⟨h.grows.trans (hs.grows.trans hgrow), fun v hv => ?_, hs.sound.extendAnswer hmem, ?_⟩
  · rw [hframe v hv, hs.frame v (mem_cons_of_mem _ hv), h.frame v hv]
  rcases h.quiet with ⟨v, hv, hne⟩ | hne | ⟨-, hdone⟩
  · exact .inl ⟨v, hv, (hs.grows.trans hgrow).ne_none hne⟩
  · exact .inr (.inl ((hs.grows.trans hgrow).ne_none hne))
  · by_cases hneib : t''.answer neib.1 = none
    · have hsame : Picat.ShortestPath.extendAnswer u neib t'' = t'' := by
        simp only [Picat.ShortestPath.extendAnswer, hneib]
      rw [hsame]
      rcases hs.quiet with (⟨v, hv, hne⟩ | hquiet) | hne
      · rcases mem_cons.1 hv with rfl | hv
        · exact .inr (.inl hne)
        · exact .inl ⟨v, hv, hne⟩
      · refine .inr (.inr ⟨hquiet, fun x hx => ?_⟩)
        rcases mem_append.1 hx with hx | hx
        · exact hdone x hx
        · rw [mem_singleton.1 hx]
          rcases hs.marked with hin | hev
          · exact fun hleads => hleads.notMem hin
          · exact hquiet neib.1 hev hneib
      · exact absurd hneib hne
    · obtain ⟨b, hb⟩ := Option.ne_none_iff_exists'.1 hneib
      refine .inr (.inl ?_)
      simp only [Picat.ShortestPath.extendAnswer, hb]
      exact addAnswer_ne_none

omit [DecidableEq V] in
theorem Passing.before (h : Passing Graph V2 active u t done t') : Quiet Graph V2 (u :: active) t' := by
  rcases h.quiet with ⟨v, hv, hne⟩ | hne | ⟨hquiet, -⟩
  · exact .inl ⟨v, mem_cons_of_mem _ hv, hne⟩
  · exact .inl ⟨u, mem_cons_self, hne⟩
  · exact .inr hquiet

theorem foldlM_tryNeib_spec (hcall : CallsSolve Graph V2 (u :: active) call) (hu : u ∉ active) (neibs : List (V × W)) :
    ∀ (done : List (V × W)) (t' : Table V W), (∀ neib ∈ neibs, ⟨u, neib.1, neib.2⟩ ∈ Graph) →
      Passing Graph V2 active u t done t' →
      ∃ t'', neibs.foldlM (tryNeib call u) t' = some t'' ∧ Passing Graph V2 active u t (done ++ neibs) t'' ∧
        Extends t' t'' := by
  induction neibs with
  | nil =>
    intro done t' _ h
    rw [append_nil]
    exact ⟨t', rfl, h, Extends.refl t'⟩
  | cons neib neibs ih =>
    intro done t' hmem h
    have hneib := hmem neib mem_cons_self
    obtain ⟨t₁, hrun₁, hs⟩ := hcall neib.1 t' ⟨_, hneib, rfl⟩ h.sound h.before
    obtain ⟨t₂, hrun₂, h₂, hgrow⟩ := ih (done ++ [neib]) _ (fun x hx => hmem x (mem_cons_of_mem _ hx))
      (h.extendAnswer hu hneib hs)
    refine ⟨t₂, ?_, ?_, (hs.grows.trans (extends_extendAnswer u neib t₁)).trans hgrow⟩
    · rw [foldlM_cons, tryNeib, hrun₁]
      exact hrun₂
    · rwa [append_assoc, singleton_append] at h₂

variable {ADList : PMap V (List (V × W))}

theorem tryRules_spec (hcall : CallsSolve Graph V2 (u :: active) call) (hu : u ∉ active)
    (hN : Neighbours Graph (getNeibs ADList u) u) (h : Passing Graph V2 active u t [] t') :
    ∃ t'', tryRules ADList V2 call u t' = some t'' ∧ Passing Graph V2 active u t (getNeibs ADList u) t'' ∧
      Extends t' t'' ∧ (u = V2 → t''.answer u ≠ none) := by
  unfold tryRules
  by_cases hV2 : u = V2
  · rw [if_pos hV2]
    have hgrow : Extends t' (t'.addAnswer u ([], 0)) := extends_addAnswer
    refine ⟨_, rfl, ⟨h.grows.trans hgrow, fun v hv => ?_, ?_, .inr (.inl addAnswer_ne_none)⟩, hgrow,
      fun _ => addAnswer_ne_none⟩
    · have hvu : v ≠ u := fun heq => hu (heq ▸ hv)
      rw [addAnswer_other hvu, h.frame v hv]
    · refine h.sound.addAnswer ?_ rfl fun v hv => .inl (mem_singleton.1 hv)
      rw [hV2]
      exact WGraph.isSimple_nil
  · rw [if_neg hV2]
    obtain ⟨t'', hrun, h', hgrow⟩ := foldlM_tryNeib_spec hcall hu (getNeibs ADList u) [] t' (fun x hx => (hN x).1 hx) h
    exact ⟨t'', hrun, h', hgrow, fun heq => absurd heq hV2⟩

omit [DecidableEq V] in
theorem Passing.again (h : Passing Graph V2 active u t done t') (keep : V → Bool) :
    Passing Graph V2 active u t [] { t' with evaluated := fun v => t'.evaluated v && keep v } := by
  refine ⟨h.grows, h.frame, h.sound, ?_⟩
  rcases h.quiet with hactive | hne | ⟨hquiet, -⟩
  · exact .inl hactive
  · exact .inr (.inl hne)
  · refine .inr (.inr ⟨fun v hv => ?_, fun x hx => absurd hx not_mem_nil⟩)
    rw [Bool.and_eq_true] at hv
    exact hquiet v hv.1

theorem foldlM_tryAgain_spec (hcall : CallsSolve Graph V2 (u :: active) call) (hu : u ∉ active)
    (hN : Neighbours Graph (getNeibs ADList u) u) (keeps : List (V → Bool)) :
    ∀ t' : Table V W, Passing Graph V2 active u t (getNeibs ADList u) t' → (u = V2 → t'.answer u ≠ none) →
      ∃ t'', keeps.foldlM (tryAgain ADList V2 call u) t' = some t'' ∧
        Passing Graph V2 active u t (getNeibs ADList u) t'' ∧ Extends t' t'' ∧ (u = V2 → t''.answer u ≠ none) := by
  induction keeps with
  | nil => exact fun t' h hV2 => ⟨t', rfl, h, Extends.refl t', hV2⟩
  | cons keep keeps ih =>
    intro t' h _
    obtain ⟨t₁, hrun₁, h₁, hgrow₁, hV2₁⟩ := tryRules_spec hcall hu hN (h.again keep)
    obtain ⟨t₂, hrun₂, h₂, hgrow₂, hV2₂⟩ := ih t₁ h₁ hV2₁
    refine ⟨t₂, ?_, h₂, Extends.trans hgrow₁ hgrow₂, hV2₂⟩
    rw [foldlM_cons, tryAgain, hrun₁]
    exact hrun₂

theorem Passing.solved {neibs : List (V × W)} (h : Passing Graph V2 active u t neibs t') (hN : Neighbours Graph neibs u)
    (hV2 : u = V2 → t'.answer u ≠ none) :
    Solved Graph V2 active u t { t' with evaluated := update t'.evaluated u true } := by
  refine ⟨h.grows, h.frame, h.sound, .inr (update_self _ _ _), ?_⟩
  rcases h.quiet with hactive | hne | ⟨hquiet, hdone⟩
  · exact .inl (.inl hactive)
  · exact .inr hne
  · by_cases hu : t'.answer u = none
    · refine .inl (.inr fun v hv hnone hleads => ?_)
      have hcons : (graphOf Graph).Leads (u :: active) V2 v := by
        refine WGraph.leads_cons (fun heq => hV2 heq hu) (fun e he hsrc => hdone (e.v2, e.w) ((hN _).2 ?_)) hleads
        rw [← hsrc]
        exact he
      by_cases hvu : v = u
      · subst hvu
        exact hcons.notMem mem_cons_self
      · have hev : t'.evaluated v = true := (update_of_ne hvu _ _).symm.trans hv
        exact hquiet v hev hnone hcons
    · exact .inr hu

omit [DecidableEq V] in
theorem Quiet.start (hsound : Sound Graph V2 t) (hquiet : Quiet Graph V2 active t) :
    Passing Graph V2 active u t [] { t with clock := t.clock + 1 } := by
  refine ⟨fun _ _ h => h, fun _ _ => rfl, hsound, ?_⟩
  rcases hquiet with hactive | hquiet
  · exact .inl hactive
  · refine .inr (.inr ⟨fun v hv hnone hleads => hquiet v hv hnone hleads.of_cons, fun x hx => ?_⟩)
    exact absurd hx not_mem_nil

/-- The active calls are for different vertices of `U`, and there is fuel for the others. -/
structure Fits (U : List V) (fuel : ℕ) (active : List V) (u : V) : Prop where
  nodup : active.Nodup
  subset : active ⊆ U
  mem : u ∈ U
  fuel : U.length < fuel + active.length

omit [DecidableEq V] in
theorem Fits.ne_zero {U : List V} (h : Fits U fuel active u) : fuel ≠ 0 := by
  rintro rfl
  have hle := (subperm_of_subset h.nodup h.subset).length_le
  have hlt := h.fuel
  omega

omit [DecidableEq V] in
theorem Fits.next {U : List V} (h : Fits U (fuel + 1) active u) (hu : u ∉ active) (hv : v ∈ U) :
    Fits U fuel (u :: active) v := by
  refine ⟨nodup_cons.2 ⟨hu, h.nodup⟩, cons_subset.2 ⟨h.mem, h.subset⟩, hv, ?_⟩
  have hlt := h.fuel
  rw [length_cons]
  omega

variable {iterations : ℕ → List (V → Bool)} {U : List V}

def SolvesWith (iterations : ℕ → List (V → Bool)) (ADList : PMap V (List (V × W))) (Graph : List (Mst.Edge V W)) (V2 : V)
    (U : List V) (fuel : ℕ) : Prop :=
  ∀ (active : List V) (u : V) (t : Table V W), Fits U fuel active u → Sound Graph V2 t → Quiet Graph V2 active t →
    ∃ t', solve iterations ADList V2 fuel active u t = some t' ∧ Solved Graph V2 active u t t'

theorem SolvesWith.calls (h : SolvesWith iterations ADList Graph V2 U fuel) (hU : ∀ e ∈ Graph, e.v2 ∈ U)
    (hfits : Fits U (fuel + 1) active u) (hu : u ∉ active) :
    CallsSolve Graph V2 (u :: active) (solve iterations ADList V2 fuel (u :: active)) := by
  rintro v t ⟨e, he, rfl⟩ hsound hquiet
  exact h (u :: active) e.v2 t (hfits.next hu (hU e he)) hsound hquiet

theorem solve_spec (iterations : ℕ → List (V → Bool)) (V2 : V) (hN : ∀ u, Neighbours Graph (getNeibs ADList u) u)
    (hU : ∀ e ∈ Graph, e.v2 ∈ U) (fuel : ℕ) :
    SolvesWith iterations ADList Graph V2 U fuel := by
  induction fuel with
  | zero => exact fun active u t hfits => absurd rfl hfits.ne_zero
  | succ fuel ih =>
    intro active u t hfits hsound hquiet
    rw [solve]
    by_cases hdone : u ∈ active ∨ t.evaluated u = true
    · rw [if_pos hdone]
      exact ⟨t, rfl, Extends.refl t, fun _ _ => rfl, hsound, hdone, .inl hquiet⟩
    rw [if_neg hdone]
    obtain ⟨hnot, -⟩ := not_or.1 hdone
    have hcall := ih.calls hU hfits hnot
    obtain ⟨t₁, hrun₁, h₁, -, hV2₁⟩ := tryRules_spec hcall hnot (hN u) (hquiet.start hsound)
    obtain ⟨t₂, hrun₂, h₂, -, hV2₂⟩ := foldlM_tryAgain_spec hcall hnot (hN u) (iterations t.clock) t₁ h₁ hV2₁
    simp only [hrun₁, hrun₂, bind, Option.bind]
    exact ⟨_, rfl, h₂.solved (hN u) hV2₂⟩

theorem solve_answer (hN : ∀ u, Neighbours Graph (getNeibs ADList u) u) (hU : ∀ e ∈ Graph, e.v2 ∈ U)
    (hfits : Fits U (fuel + 1) active u) (hsound : Sound Graph V2 t) (hquiet : Quiet Graph V2 active t) (hu : u ∉ active)
    (hev : t.evaluated u = false)
    (hrules : ∃ t₁, tryRules ADList V2 (solve iterations ADList V2 fuel (u :: active)) u { t with clock := t.clock + 1 } =
      some t₁ ∧ t₁.answer u = some a) :
    ∃ t', solve iterations ADList V2 (fuel + 1) active u t = some t' ∧ t'.answer u = some a := by
  have hcall := (solve_spec iterations V2 hN hU fuel).calls hU hfits hu
  obtain ⟨t₁, hrun₁, h₁, -, hV2₁⟩ := tryRules_spec hcall hu (hN u) (hquiet.start hsound)
  obtain ⟨t₂, hrun₂, h₂, hgrow, -⟩ := foldlM_tryAgain_spec hcall hu (hN u) (iterations t.clock) t₁ h₁ hV2₁
  obtain ⟨t₁', hrun₁', ha⟩ := hrules
  obtain rfl : t₁ = t₁' := Option.some.inj (hrun₁.symm.trans hrun₁')
  rw [solve, if_neg (by simp [hu, hev])]
  simp only [hrun₁, hrun₂, bind, Option.bind]
  exact ⟨_, rfl, hgrow u a ha⟩

theorem solve_first (iterations : ℕ → List (V → Bool)) (hN : ∀ u, Neighbours Graph (getNeibs ADList u) u)
    (hU : ∀ e ∈ Graph, e.v2 ∈ U) (p : List (Mst.Edge V W)) :
    ∀ (fuel : ℕ) (active : List V) (u : V) (t : Table V W), Fits U fuel active u → Sound Graph V2 t →
      Quiet Graph V2 active t → (graphOf Graph).IsSimple V2 u p →
      (∀ e ∈ p, ∃ rest, getNeibs ADList e.v1 = (e.v2, e.w) :: rest) →
      (∀ v ∈ (graphOf Graph).verts u p, v ∉ active ∧ t.evaluated v = false ∧ t.answer v = none) →
      ∃ t', solve iterations ADList V2 fuel active u t = some t' ∧ t'.answer u = some (p, (graphOf Graph).weight p) := by
  induction p with
  | nil =>
    intro fuel active u t hfits hsound hquiet hp _ hfresh
    obtain ⟨fuel, rfl⟩ := Nat.exists_eq_succ_of_ne_zero hfits.ne_zero
    obtain ⟨hu, hev, hnone⟩ := hfresh u mem_cons_self
    obtain rfl : u = V2 := hp.walk
    refine solve_answer hN hU hfits hsound hquiet hu hev ⟨_, if_pos rfl, ?_⟩
    exact addAnswer_self hnone
  | cons e p ih =>
    intro fuel active u t hfits hsound hquiet hp hfirst hfresh
    obtain ⟨fuel, rfl⟩ := Nat.exists_eq_succ_of_ne_zero hfits.ne_zero
    obtain ⟨hu, hev, hnone⟩ := hfresh u mem_cons_self
    obtain ⟨he, hsrc, hp', hout⟩ := WGraph.isSimple_cons.1 hp
    obtain rfl : e.v1 = u := hsrc
    have hmem : e ∈ Graph := he
    have hstart := hquiet.start (u := e.v1) hsound
    have hfits' := hfits.next hu (hU e hmem)
    -- the call for the next vertex gives the rest of the path
    obtain ⟨t₁, hrun₁, ha⟩ := ih fuel (e.v1 :: active) e.v2 { t with clock := t.clock + 1 } hfits' hsound hstart.before
      hp' (fun f hf => hfirst f (mem_cons_of_mem _ hf)) fun v hv => by
        obtain ⟨hva, hvev, hvnone⟩ := hfresh v (mem_cons_of_mem _ hv)
        refine ⟨?_, hvev, hvnone⟩
        rw [mem_cons, not_or]
        exact ⟨fun heq => hout (heq ▸ hv), hva⟩
    have hcall := (solve_spec iterations V2 hN hU fuel).calls hU hfits hu
    obtain ⟨t₁', hrun₁', hs⟩ := hcall e.v2 { t with clock := t.clock + 1 } ⟨e, hmem, rfl⟩ hsound hstart.before
    obtain rfl : t₁ = t₁' := Option.some.inj (hrun₁.symm.trans hrun₁')
    have hnone₁ : t₁.answer e.v1 = none := (hs.frame e.v1 mem_cons_self).trans hnone
    have hanswer : (extendAnswer e.v1 (e.v2, e.w) t₁).answer e.v1 = some (e :: p, (graphOf Graph).weight (e :: p)) := by
      simp only [extendAnswer, ha]
      rw [addAnswer_self hnone₁, WGraph.weight_cons, add_comm]
      rfl
    obtain ⟨rest, hrest⟩ := hfirst e mem_cons_self
    have hin : ∀ neib ∈ rest, ⟨e.v1, neib.1, neib.2⟩ ∈ Graph := fun neib hneib =>
      (hN e.v1 neib).1 (hrest ▸ mem_cons_of_mem _ hneib)
    have hpassing : Passing Graph V2 active e.v1 t ([] ++ [(e.v2, e.w)]) (extendAnswer e.v1 (e.v2, e.w) t₁) :=
      hstart.extendAnswer hu hmem hs
    obtain ⟨t₂, hrun₂, -, hgrow⟩ := foldlM_tryNeib_spec hcall hu rest _ _ hin hpassing
    have hne : e.v1 ≠ V2 := fun heq => hout (heq ▸ hp'.walk.target_mem)
    refine solve_answer hN hU hfits hsound hquiet hu hev ⟨t₂, ?_, hgrow _ _ hanswer⟩
    rw [tryRules, if_neg hne, hrest, foldlM_cons, tryNeib, hrun₁]
    exact hrun₂

end

/-! ## The adjacency list -/

section
variable {V W : Type} [DecidableEq V] {Graph G : List (Mst.Edge V W)} {V1 V2 u : V} {p : List (Mst.Edge V W)}

theorem getNeibs_insert (ADList : PMap V (List (V × W))) (v : V) (neibs : List (V × W)) :
    getNeibs (ADList.insert v neibs) u = if u = v then neibs else getNeibs ADList u := by
  by_cases hu : u = v
  · rw [if_pos hu, hu, getNeibs, AList.lookup_insert, Option.getD_some]
  · rw [if_neg hu, getNeibs, AList.lookup_insert_ne hu, getNeibs]

theorem getNeibs_edgesToAdjacentList (Graph : List (Mst.Edge V W)) : ∀ ADList : PMap V (List (V × W)),
    getNeibs (edgesToAdjacentList Graph ADList) u =
      ((Graph.filter fun e => e.v1 = u).map fun e => (e.v2, e.w)).reverse ++ getNeibs ADList u := by
  induction Graph with
  | nil => exact fun ADList => rfl
  | cons e Graph ih =>
    intro ADList
    rw [edgesToAdjacentList, ih, getNeibs_insert]
    by_cases he : e.v1 = u
    · rw [if_pos he.symm, filter_cons_of_pos (by simpa using he), map_cons, reverse_cons,
        append_assoc, singleton_append, ← he, getNeibs]
    · rw [if_neg (Ne.symm he), filter_cons_of_neg (by simpa using he)]

theorem getNeibs_empty : getNeibs (edgesToAdjacentList Graph ∅) u =
    ((Graph.filter fun e => e.v1 = u).map fun e => (e.v2, e.w)).reverse := by
  rw [getNeibs_edgesToAdjacentList, getNeibs, AList.lookup_empty, Option.getD_none, append_nil]

theorem neighbours (Graph : List (Mst.Edge V W)) (u : V) :
    Neighbours Graph (getNeibs (edgesToAdjacentList Graph ∅) u) u := by
  rintro ⟨v, w⟩
  simp only [getNeibs_empty, mem_reverse, mem_map, mem_filter, decide_eq_true_eq, Prod.mk.injEq]
  constructor
  · rintro ⟨e, ⟨he, rfl⟩, rfl, rfl⟩
    exact he
  · exact fun he => ⟨_, ⟨he, rfl⟩, rfl, rfl⟩

omit [DecidableEq V] in
theorem graphOf_perm (h : G.Perm Graph) : graphOf G = graphOf Graph := by
  have hmem : (fun e => e ∈ G) = fun e => e ∈ Graph := by
    funext e
    exact propext h.mem_iff
  unfold graphOf
  rw [hmem]

/-- The edges of a simple path can be the last ones of the graph, and then they come first. -/
theorem exists_order (hp : (graphOf Graph).IsSimple V2 V1 p) :
    ∃ G, G.Perm Graph ∧ ∀ e ∈ p, ∃ rest, getNeibs (edgesToAdjacentList G ∅) e.v1 = (e.v2, e.w) :: rest := by
  have hsub : p ⊆ Graph := fun e he => hp.walk.mem_edges he
  obtain ⟨l, hl, hlsub⟩ := subperm_of_subset hp.nodup_edges hsub
  obtain ⟨r, hr⟩ := hlsub.exists_perm_append
  refine ⟨r ++ p, (hr.trans ((hl.append_right r).trans perm_append_comm)).symm, fun e he => ?_⟩
  have hall : ∀ f ∈ p.filter fun f => f.v1 = e.v1, f = e := by
    intro f hf
    simp only [mem_filter, decide_eq_true_eq] at hf
    exact hp.src_injOn hf.1 he hf.2
  have hin : e ∈ p.filter fun f => f.v1 = e.v1 := by
    simp only [mem_filter, decide_eq_true_eq]
    exact ⟨he, trivial⟩
  obtain ⟨k, hk⟩ := Nat.exists_eq_succ_of_ne_zero (length_pos_of_mem hin).ne'
  rw [getNeibs_empty, filter_append, List.map_append, reverse_append, eq_replicate_iff.2 ⟨hk, hall⟩,
    map_replicate, reverse_replicate, replicate_succ, cons_append]
  exact ⟨_, rfl⟩

end

/-! ## The answers of the program -/

section
variable {V W : Type} [DecidableEq V] [AddCommMonoid W] {Graph G : List (Mst.Edge V W)} {V1 V2 : V} {p q : List (Mst.Edge V W)}
  {iterations : ℕ → List (V → Bool)}

omit [DecidableEq V] in
theorem sound_empty (Graph : List (Mst.Edge V W)) (V2 : V) : Sound Graph V2 ⟨fun _ => false, fun _ => none, 0⟩ :=
  fun _ _ _ h => absurd h.symm (Option.some_ne_none _)

omit [DecidableEq V] [AddCommMonoid W] in
theorem quiet_empty (Graph : List (Mst.Edge V W)) (V2 : V) : Quiet Graph V2 [] ⟨fun _ => false, fun _ => none, 0⟩ :=
  .inr fun _ h => absurd h Bool.false_ne_true

omit [DecidableEq V] [AddCommMonoid W] in
theorem fits_start (Graph : List (Mst.Edge V W)) (V1 : V) :
    Fits (V1 :: Graph.map Mst.Edge.v2) (Graph.length + 2) [] V1 := by
  refine ⟨nodup_nil, nil_subset _, mem_cons_self, ?_⟩
  rw [length_cons, length_map, length_nil]
  omega

omit [DecidableEq V] [AddCommMonoid W] in
theorem target_mem (V1 : V) : ∀ e ∈ Graph, e.v2 ∈ V1 :: Graph.map Mst.Edge.v2 := fun _ he =>
  mem_cons_of_mem _ (mem_map_of_mem he)

theorem shortestPath_spec (iterations : ℕ → List (V → Bool)) (Graph : List (Mst.Edge V W)) (V1 V2 : V) :
    ∃ answer, shortestPath iterations Graph V1 V2 = some answer ∧
      (answer = none → ¬ ∃ p, (graphOf Graph).IsWalk V2 V1 p) ∧
      ∀ p c, answer = some (p, c) → (graphOf Graph).IsSimple V2 V1 p ∧ c = (graphOf Graph).weight p := by
  obtain ⟨t, hrun, hs⟩ := solve_spec iterations V2 (neighbours Graph) (target_mem V1) (Graph.length + 2) []
    V1 _ (fits_start Graph V1) (sound_empty Graph V2) (quiet_empty Graph V2)
  refine ⟨t.answer V1, ?_, fun hnone hwalk => ?_, fun p c hanswer => ?_⟩
  · rw [shortestPath, tabledShortestPath, hrun]
    rfl
  · have hev := hs.marked.resolve_left not_mem_nil
    rcases hs.quiet with (⟨v, hv, -⟩ | hquiet) | hne
    · exact absurd hv not_mem_nil
    · exact hquiet V1 hev hnone (WGraph.leads_nil_iff.2 hwalk)
    · exact hne hnone
  · obtain ⟨hp, hc, -⟩ := hs.sound V1 p c hanswer
    exact ⟨hp, hc⟩

theorem exists_order_answer (iterations : ℕ → List (V → Bool)) (hp : (graphOf Graph).IsSimple V2 V1 p) :
    ∃ G, G.Perm Graph ∧ shortestPath iterations G V1 V2 = some (some (p, (graphOf Graph).weight p)) := by
  obtain ⟨G, hperm, hfirst⟩ := exists_order hp
  rw [← graphOf_perm hperm] at hp ⊢
  obtain ⟨t, hrun, hanswer⟩ := solve_first iterations (neighbours G) (target_mem V1) p (G.length + 2) []
    V1 _ (fits_start G V1) (sound_empty G V2) (quiet_empty G V2) hp hfirst fun v _ => ⟨not_mem_nil, rfl, rfl⟩
  refine ⟨G, hperm, ?_⟩
  rw [shortestPath, tabledShortestPath, hrun]
  exact congrArg some hanswer

end

/-! ## Shortest paths -/

section
variable {V W : Type} [DecidableEq V] [AddCommMonoid W] [LinearOrder W]

/-- What `shortest_path` is for: it fails when there is no path, and otherwise has a path of least weight with its
weight. -/
def IsShortest (Graph : List (Mst.Edge V W)) (V1 V2 : V) : Option (Option (List (Mst.Edge V W) × W)) → Prop
  | none => False
  | some none => ¬ ∃ p, (graphOf Graph).IsWalk V2 V1 p
  | some (some (Path, Cost)) => (graphOf Graph).IsWalk V2 V1 Path ∧ Cost = (graphOf Graph).weight Path ∧
      ∀ p, (graphOf Graph).IsWalk V2 V1 p → Cost ≤ (graphOf Graph).weight p

/-- Without negative weights the answer is right whatever the order of the edges if and only if all simple paths have the
same weight. -/
theorem shortestPath_correct_iff [IsOrderedAddMonoid W] (iterations : ℕ → List (V → Bool)) (Graph : List (Mst.Edge V W))
    (V1 V2 : V) (hpos : ∀ e ∈ Graph, 0 ≤ e.w) :
    (∀ G : List (Mst.Edge V W), G.Perm Graph → IsShortest G V1 V2 (shortestPath iterations G V1 V2)) ↔
      ∀ p q, (graphOf Graph).IsSimple V2 V1 p → (graphOf Graph).IsSimple V2 V1 q →
        (graphOf Graph).weight p = (graphOf Graph).weight q := by
  constructor
  · intro hall
    have hle : ∀ p q, (graphOf Graph).IsSimple V2 V1 p → (graphOf Graph).IsSimple V2 V1 q →
        (graphOf Graph).weight p ≤ (graphOf Graph).weight q := by
      intro p q hp hq
      obtain ⟨G, hperm, hrun⟩ := exists_order_answer iterations hp
      have hshort := hall G hperm
      rw [hrun] at hshort
      have hmin := hshort.2.2 q
      rw [graphOf_perm hperm] at hmin
      exact hmin hq.walk
    exact fun p q hp hq => le_antisymm (hle p q hp hq) (hle q p hq hp)
  · intro heq G hperm
    obtain ⟨answer, hrun, hnone, hsome⟩ := shortestPath_spec iterations G V1 V2
    rw [hrun]
    cases answer with
    | none => exact hnone rfl
    | some answer =>
      obtain ⟨p, c⟩ := answer
      obtain ⟨hp, hc⟩ := hsome p c rfl
      refine ⟨hp.walk, hc, fun q hq => ?_⟩
      rw [graphOf_perm hperm] at hp hc hq ⊢
      obtain ⟨r, hr, hle⟩ := hq.exists_simple_le hpos
      rw [hc, heq p r hp hr]
      exact hle

end

theorem shortestPath_correct_edge :
    IsShortest [(⟨0, 1, 5⟩ : Mst.Edge ℕ ℤ)] 0 1 (shortestPath (fun _ => []) [⟨0, 1, 5⟩] 0 1) := by
  have honly : ∀ p, (graphOf [(⟨0, 1, 5⟩ : Mst.Edge ℕ ℤ)]).IsWalk 1 0 p → p = [⟨0, 1, 5⟩] := by
    intro p hp
    cases p with
    | nil => exact absurd (show (0 : ℕ) = 1 from hp) (by decide)
    | cons e p =>
      obtain ⟨he, -, hp⟩ := hp
      obtain rfl : e = ⟨0, 1, 5⟩ := mem_singleton.1 he
      cases p with
      | nil => rfl
      | cons f p =>
        obtain ⟨hf, hsrc, -⟩ := hp
        obtain rfl : f = ⟨0, 1, 5⟩ := mem_singleton.1 hf
        exact absurd (show (0 : ℕ) = 1 from hsrc) (by decide)
  refine (shortestPath_correct_iff _ _ 0 1 (by decide)).2 (fun p q hp hq => ?_) _ (List.Perm.refl _)
  rw [honly p hp.walk, honly q hq.walk]

/-- From 0 to 1 directly with the weight 5, or by 2 with the weight 2 : the direct edge is the last one, and its path is the
answer. -/
theorem shortestPath_direct :
    shortestPath (fun _ => []) [⟨0, 2, 1⟩, ⟨2, 1, 1⟩, ⟨0, 1, 5⟩] 0 1 = some (some ([(⟨0, 1, 5⟩ : Mst.Edge ℕ ℤ)], 5)) ∧
      ¬ IsShortest [⟨0, 2, 1⟩, ⟨2, 1, 1⟩, (⟨0, 1, 5⟩ : Mst.Edge ℕ ℤ)] 0 1
        (shortestPath (fun _ => []) [⟨0, 2, 1⟩, ⟨2, 1, 1⟩, ⟨0, 1, 5⟩] 0 1) := by
  have hrun : shortestPath (fun _ => []) [⟨0, 2, 1⟩, ⟨2, 1, 1⟩, ⟨0, 1, 5⟩] 0 1 =
      some (some ([(⟨0, 1, 5⟩ : Mst.Edge ℕ ℤ)], 5)) := rfl
  refine ⟨hrun, fun hshort => ?_⟩
  rw [hrun] at hshort
  have hle := hshort.2.2 [⟨0, 2, 1⟩, ⟨2, 1, 1⟩] ⟨mem_cons_self, rfl, mem_cons_of_mem _ mem_cons_self, rfl, rfl⟩
  exact absurd hle (by decide)

end Picat.ShortestPath
